import MySQL.Strings.DecimalRound

/-!
# Decoding

`bin2decimal` reads the groups of digits of a byte string, drops the leading zeros of the
integer part and rejects the string if a group is too large.
-/

namespace MySQL.Strings.Decimal

open Lib List

variable {src : List Byte} {dst : Decimal} {mask : BitVec 32} {i k n w P S : ℕ}
  {words l : List ℕ} {out : List Byte × List ℕ × ℕ}

/-! ## The groups of digits -/

def readGroup (mask : BitVec 32) (n : ℕ) (src : List Byte) : BitVec 32 :=
  miSintKorr n src ^^^ mask

/-- The next `k` full words. -/
def wordsAt (mask : BitVec 32) : ℕ → List Byte → List ℕ
  | 0, _ => []
  | k + 1, src => (readGroup mask 4 src).toNat :: wordsAt mask k (src.drop 4)

@[simp] theorem length_wordsAt : (wordsAt mask k src).length = k := by
  induction k generalizing src with
  | zero => rfl
  | succ k ih => rw [wordsAt, length_cons, ih]

theorem readFracWords_eq_some (words : List ℕ) {out : List Byte × List ℕ} :
    readFracWords mask k src words = some out ↔ (∀ w ∈ wordsAt mask k src, w ≤ digMax) ∧
      (src.drop (4 * k), words ++ wordsAt mask k src) = out := by
  induction k generalizing src words with
  | zero => simp [readFracWords, wordsAt]
  | succ k ih =>
    rw [wordsAt, forall_mem_cons, ← not_lt, and_assoc]
    change (if digMax < (readGroup mask 4 src).toNat then _ else _) = _ ↔ _
    rw [Option.ite_none_left_eq_some, ih, drop_drop, Nat.add_comm 4, append_assoc]
    rfl

theorem readIntgWords_eq_some_of_ne_nil (hne : words ≠ []) :
    readIntgWords mask k src words i = some out ↔ (∀ w ∈ wordsAt mask k src, w ≤ digMax) ∧
      (src.drop (4 * k), words ++ wordsAt mask k src, i) = out := by
  induction k generalizing src words with
  | zero => simp [readIntgWords, wordsAt]
  | succ k ih =>
    rw [wordsAt, forall_mem_cons, ← not_lt, and_assoc]
    change (if digMax < (readGroup mask 4 src).toNat then _ else _) = _ ↔ _
    rw [Option.ite_none_left_eq_some, if_pos (.inl hne), ih (by simp), drop_drop, Nat.add_comm 4,
      append_assoc]
    rfl

def skipZeros (l : List ℕ) : List ℕ := l.dropWhile (· == 0)

theorem readIntgWords_eq_some_of_nil (hk : i = 9 * k) :
    readIntgWords mask k src [] i = some out ↔ (∀ w ∈ wordsAt mask k src, w ≤ digMax) ∧
      (src.drop (4 * k), skipZeros (wordsAt mask k src),
        9 * (skipZeros (wordsAt mask k src)).length) = out := by
  induction k generalizing src i with
  | zero => simp [readIntgWords, wordsAt, skipZeros, hk]
  | succ k ih =>
    rw [wordsAt, forall_mem_cons, ← not_lt, skipZeros, dropWhile_cons]
    change (if digMax < (readGroup mask 4 src).toNat then _ else
      if [] ≠ [] ∨ readGroup mask 4 src ≠ 0 then _ else _) = _ ↔ _
    by_cases hmax : digMax < (readGroup mask 4 src).toNat
    · simp [hmax]
    · rw [if_neg hmax]
      by_cases hzero : readGroup mask 4 src = 0
      · rw [if_neg (by simp [hzero]), ih (by unfold digPerDec1; omega), hzero, drop_drop,
          show 4 + 4 * k = 4 * (k + 1) by omega]
        simp only [show ¬ digMax < (0 : BitVec 32).toNat by decide, not_false_eq_true, true_and]
        rfl
      · have hne : ((readGroup mask 4 src).toNat == 0) = false := by
          rw [beq_eq_false_iff_ne]
          exact fun h => hzero (BitVec.eq_of_toNat_eq h)
        rw [if_pos (.inr hzero), readIntgWords_eq_some_of_ne_nil (by simp), drop_drop,
          show 4 + 4 * k = 4 * (k + 1) by omega, hne, hk]
        simp only [hmax, not_false_eq_true, true_and, Bool.false_eq_true, if_false,
          length_cons, length_wordsAt]
        rfl

/-- The groups of digits in a byte string: the first one of the integer part, its full words,
the full words of the fraction and its last group. -/
structure Groups where
  head : BitVec 32
  full : List ℕ
  fields : List ℕ
  tail : BitVec 32

def groups (mask : BitVec 32) (src : List Byte) (P S : ℕ) : Groups where
  head := readGroup mask (dig2bytes ((P - S) % 9)) src
  full := wordsAt mask ((P - S) / 9) (src.drop (dig2bytes ((P - S) % 9)))
  fields := wordsAt mask (S / 9) (src.drop (digitBytes (P - S)))
  tail := readGroup mask (dig2bytes (S % 9)) (src.drop (digitBytes (P - S) + 4 * (S / 9))) *
    BitVec.ofNat 32 (powers10 (9 - S % 9))

namespace Groups

variable (g : Groups)

/-- What `bin2decimal` checks. -/
structure Accepted (P S : ℕ) : Prop where
  head : (P - S) % 9 ≠ 0 → (g.head.signExtend 64).toNat < powers10 ((P - S) % 9 + 1)
  full : ∀ w ∈ g.full, w ≤ digMax
  fields : ∀ w ∈ g.fields, w ≤ digMax
  tail : S % 9 ≠ 0 → g.tail.toNat ≤ digMax

def intgWords (P S : ℕ) : List ℕ :=
  if (P - S) % 9 ≠ 0 ∧ g.head ≠ 0 then g.head.toNat :: g.full else skipZeros g.full

def fracWords (S : ℕ) : List ℕ := if S % 9 = 0 then g.fields else g.fields ++ [g.tail.toNat]

def intg (P S : ℕ) : ℕ :=
  if (P - S) % 9 ≠ 0 ∧ g.head ≠ 0 then P - S else 9 * (skipZeros g.full).length

variable {g}

theorem intg_of_head (h : (P - S) % 9 ≠ 0 ∧ g.head ≠ 0) :
    g.intgWords P S = g.head.toNat :: g.full ∧ g.intg P S = P - S :=
  ⟨if_pos h, if_pos h⟩

theorem intg_of_not_head (h : ¬ ((P - S) % 9 ≠ 0 ∧ g.head ≠ 0)) :
    g.intgWords P S = skipZeros g.full ∧ g.intg P S = 9 * (skipZeros g.full).length :=
  ⟨if_neg h, if_neg h⟩

end Groups

/-- The four steps of `bin2decimal`. -/
def readAll (mask : BitVec 32) (src : List Byte) (P S : ℕ) : Option (List ℕ × ℕ) :=
  (readHead mask ((P - S) % 9) src (P - S)).bind fun (src, words, intg) =>
  (readIntgWords mask ((P - S) / 9) src words intg).bind fun (src, words, intg) =>
  (readFracWords mask (S / 9) src words).bind fun (src, words) =>
  (readTail mask (S % 9) src words).map fun words => (words, intg)

theorem readHead_eq_some :
    readHead mask k src i = some out ↔
      (k ≠ 0 → ((readGroup mask (dig2bytes k) src).signExtend 64).toNat < powers10 (k + 1)) ∧
        (src.drop (dig2bytes k),
          if k ≠ 0 ∧ readGroup mask (dig2bytes k) src ≠ 0 then
            ([(readGroup mask (dig2bytes k) src).toNat], i) else ([], i - k)) = out := by
  have heq : readHead mask k src i =
      if k = 0 then some (src, [], i)
      else if powers10 (k + 1) ≤ ((readGroup mask (dig2bytes k) src).signExtend 64).toNat then none
      else if readGroup mask (dig2bytes k) src ≠ 0 then
        some (src.drop (dig2bytes k), [(readGroup mask (dig2bytes k) src).toNat], i)
      else some (src.drop (dig2bytes k), [], i - k) := rfl
  rw [heq]
  generalize readGroup mask (dig2bytes k) src = x
  by_cases hk : k = 0
  · simp [hk, dig2bytes]
  · rw [if_neg hk, ← not_le]
    split
    case isTrue hbad => simp [hk, hbad]
    case isFalse hgood =>
      by_cases hzero : x = 0#32
      · simp [hk, hzero, powers10]
      · simp [hk, hgood, hzero]

theorem readTail_eq_some {out : List ℕ} :
    readTail mask k src words = some out ↔
      (k ≠ 0 → (readGroup mask (dig2bytes k) src * BitVec.ofNat 32 (powers10 (9 - k))).toNat ≤
        digMax) ∧
        (if k = 0 then words else words ++
          [(readGroup mask (dig2bytes k) src * BitVec.ofNat 32 (powers10 (9 - k))).toNat]) =
            out := by
  have heq : readTail mask k src words =
      if k = 0 then some words
      else if digMax < (readGroup mask (dig2bytes k) src * BitVec.ofNat 32 (powers10 (9 - k))).toNat
      then none
      else some (words ++
        [(readGroup mask (dig2bytes k) src * BitVec.ofNat 32 (powers10 (9 - k))).toNat]) := rfl
  rw [heq]
  generalize (readGroup mask (dig2bytes k) src * BitVec.ofNat 32 (powers10 (9 - k))).toNat = x
  by_cases hk : k = 0
  · simp [hk]
  · split <;> simp [*]

theorem drop_digitBytes : (src.drop (dig2bytes (k % 9))).drop (4 * (k / 9)) =
    src.drop (digitBytes k) := by
  rw [drop_drop, digitBytes, digPerDec1, Nat.mul_comm 4, Nat.add_comm]

theorem readIntg_eq_some {head : List ℕ × ℕ}
    (hhead : (if (P - S) % 9 ≠ 0 ∧ readGroup mask (dig2bytes ((P - S) % 9)) src ≠ 0 then
      ([(readGroup mask (dig2bytes ((P - S) % 9)) src).toNat], P - S) else
        ([], P - S - (P - S) % 9)) = head) :
    readIntgWords mask ((P - S) / 9) (src.drop (dig2bytes ((P - S) % 9))) head.1 head.2 = some out ↔
      (∀ w ∈ (groups mask src P S).full, w ≤ digMax) ∧
        (src.drop (digitBytes (P - S)), (groups mask src P S).intgWords P S,
          (groups mask src P S).intg P S) = out := by
  rw [← hhead]
  by_cases hne : (P - S) % 9 ≠ 0 ∧ readGroup mask (dig2bytes ((P - S) % 9)) src ≠ 0
  · obtain ⟨hwords, hintg⟩ := Groups.intg_of_head (g := groups mask src P S) hne
    rw [hwords, hintg, if_pos hne, readIntgWords_eq_some_of_ne_nil (by simp), drop_digitBytes]
    rfl
  · obtain ⟨hwords, hintg⟩ := Groups.intg_of_not_head (g := groups mask src P S) hne
    rw [hwords, hintg, if_neg hne, readIntgWords_eq_some_of_nil (by simp only; omega),
      drop_digitBytes]
    rfl

theorem accepted_of_readAll {out : List ℕ × ℕ} (h : readAll mask src P S = some out) :
    (groups mask src P S).Accepted P S := by
  obtain ⟨⟨src₁, head⟩, hhead, h⟩ := Option.bind_eq_some_iff.mp h
  obtain ⟨hhead', heq⟩ := readHead_eq_some.mp hhead
  cases heq
  obtain ⟨⟨src₂, words, intg⟩, hfull, h⟩ := Option.bind_eq_some_iff.mp h
  obtain ⟨hfull', heq⟩ := (readIntg_eq_some rfl).mp hfull
  cases heq
  obtain ⟨⟨src₃, words⟩, hfields, h⟩ := Option.bind_eq_some_iff.mp h
  obtain ⟨hfields', heq⟩ := (readFracWords_eq_some _).mp hfields
  cases heq
  obtain ⟨words, htail, h⟩ := Option.map_eq_some_iff.mp h
  obtain ⟨htail', -⟩ := readTail_eq_some.mp htail
  rw [drop_drop] at htail'
  exact ⟨hhead', hfull', hfields', htail'⟩

theorem Groups.Accepted.readAll_eq (h : (groups mask src P S).Accepted P S) :
    readAll mask src P S = some ((groups mask src P S).intgWords P S ++
      (groups mask src P S).fracWords S, (groups mask src P S).intg P S) := by
  unfold readAll
  rw [readHead_eq_some.mpr ⟨h.head, rfl⟩, Option.bind_some]
  simp only
  rw [(readIntg_eq_some rfl).mpr ⟨h.full, rfl⟩, Option.bind_some]
  rw [(readFracWords_eq_some _).mpr ⟨h.fields, rfl⟩, Option.bind_some]
  rw [readTail_eq_some.mpr ⟨by rw [drop_drop]; exact h.tail, rfl⟩]
  unfold Groups.fracWords
  split <;> simp [groups]

/-! ## The decoded number -/

def maskOf (src : List Byte) : BitVec 32 := if src.headD 0 &&& 0x80#8 ≠ 0 then 0 else -1

def groupsOf (src : List Byte) (P S : ℕ) : Groups :=
  groups (maskOf src) (flipFirst (src.take (decimalBinSize P S))) P S

/-- The number made of the groups, in the buffer of `dst`. -/
def Groups.toDecimal (g : Groups) (sign : Bool) (dst : Decimal) (P S : ℕ) : Decimal where
  intg := g.intg P S
  frac := S
  sign := sign
  buf := g.intgWords P S ++ (g.fracWords S ++
    dst.buf.drop (g.intgWords P S ++ g.fracWords S).length)

theorem bin2decimal_of_readAll (hlen : decimalSize P S ≤ dst.buf.length) :
    bin2decimal src dst P S =
      match readAll (maskOf src) (flipFirst (src.take (decimalBinSize P S))) P S with
      | none => (dst.makeZero, .badNum)
      | some (words, intg) =>
        let d : Decimal :=
          { intg := intg
            frac := S
            sign := decide (maskOf src ≠ 0)
            buf := words ++ dst.buf.drop words.length }
        (if d.intg = 0 ∧ d.frac = 0 then d.makeZero else d, .ok) := by
  have hsub (x : ℕ) : x - x / 9 * 9 = x % 9 := by omega
  have hsum (x : ℕ) : x / 9 * 9 + x % 9 = x := by omega
  have hwords (x : ℕ) : (x / 9 + if 0 < x % 9 then 1 else 0) = roundUp x := by
    rw [roundUp_eq]
    split <;> split <;> omega
  have hfit : ¬ dst.buf.length < roundUp (P - S) + roundUp S := not_lt.mpr hlen
  unfold bin2decimal
  simp only [digPerDec1, hsub, hsum, hwords, if_neg hfit]
  rfl

/-- What `bin2decimal` returns if it accepts the groups. -/
def accepted (src : List Byte) (dst : Decimal) (P S : ℕ) : Decimal :=
  let d := (groupsOf src P S).toDecimal (decide (maskOf src ≠ 0)) dst P S
  if d.intg = 0 ∧ d.frac = 0 then d.makeZero else d

theorem accepted_of_zero (h : (groupsOf src P S).intg P S = 0 ∧ S = 0) : accepted src dst P S =
    ((groupsOf src P S).toDecimal (decide (maskOf src ≠ 0)) dst P S).makeZero :=
  if_pos h

theorem accepted_of_not_zero (h : ¬ ((groupsOf src P S).intg P S = 0 ∧ S = 0)) :
    accepted src dst P S = (groupsOf src P S).toDecimal (decide (maskOf src ≠ 0)) dst P S :=
  if_neg h

theorem bin2decimal_of_accepted (hlen : decimalSize P S ≤ dst.buf.length)
    (h : (groupsOf src P S).Accepted P S) :
    bin2decimal src dst P S = (accepted src dst P S, .ok) := by
  rw [bin2decimal_of_readAll hlen, Groups.Accepted.readAll_eq h]
  unfold accepted Groups.toDecimal groupsOf
  simp only [append_assoc]

theorem bin2decimal_of_not_accepted (hlen : decimalSize P S ≤ dst.buf.length)
    (h : ¬ (groupsOf src P S).Accepted P S) :
    bin2decimal src dst P S = (dst.makeZero, .badNum) := by
  rw [bin2decimal_of_readAll hlen]
  cases hread : readAll (maskOf src) (flipFirst (src.take (decimalBinSize P S))) P S with
  | none => rfl
  | some out => exact absurd (accepted_of_readAll hread) h

theorem length_skipZeros_le (l : List ℕ) : (skipZeros l).length ≤ l.length :=
  (l.dropWhile_sublist _).length_le

namespace Groups

variable {g : Groups}

theorem Accepted.stored (h : g.Accepted P S)
    (hhead : (P - S) % 9 ≠ 0 → g.head.toNat < 10 ^ ((P - S) % 9))
    (hfull : g.full.length = (P - S) / 9) (hfields : g.fields.length = S / 9) :
    (g.intgWords P S).length = roundUp (g.intg P S) ∧ (g.fracWords S).length = roundUp S ∧
      (∀ w ∈ g.intgWords P S ++ g.fracWords S, w < digBase) ∧ g.intg P S ≤ P - S ∧
      ∀ w ∈ (g.intgWords P S).head?, w < 10 ^ ((g.intg P S - 1) % 9 + 1) := by
  have hmax {w : ℕ} (hw : w ≤ digMax) : w < digBase := Nat.lt_of_le_of_lt hw (by decide)
  have hfrac : (g.fracWords S).length = roundUp S ∧ ∀ w ∈ g.fracWords S, w < digBase := by
    unfold Groups.fracWords
    rw [roundUp_eq]
    split
    case isTrue => exact ⟨by omega, fun w hw => hmax (h.fields w hw)⟩
    case isFalse hne =>
      exact ⟨by rw [length_append, hfields]; rfl, forall_mem_append.mpr
        ⟨fun w hw => hmax (h.fields w hw), forall_mem_singleton.mpr (hmax (h.tail hne))⟩⟩
  suffices hint : (g.intgWords P S).length = roundUp (g.intg P S) ∧
      (∀ w ∈ g.intgWords P S, w < digBase) ∧ g.intg P S ≤ P - S ∧
      ∀ w ∈ (g.intgWords P S).head?, w < 10 ^ ((g.intg P S - 1) % 9 + 1) from
    ⟨hint.1, hfrac.1, fun w hw => (mem_append.mp hw).elim (hint.2.1 w) (hfrac.2 w),
      hint.2.2⟩
  by_cases hne : (P - S) % 9 ≠ 0 ∧ g.head ≠ 0
  · obtain ⟨hwords, hintg⟩ := intg_of_head hne
    have hlt := hhead hne.1
    have hbase : 10 ^ ((P - S) % 9) ≤ digBase := Nat.pow_le_pow_right (by decide) (by omega : _ ≤ 9)
    rw [hwords, hintg]
    refine ⟨?_, ?_, le_rfl, ?_⟩
    · rw [length_cons, hfull, roundUp_eq, if_neg hne.1]
    · intro w hw
      rcases mem_cons.mp hw with rfl | hw
      · omega
      · exact hmax (h.full w hw)
    · intro w hw
      cases hw
      rwa [show (P - S - 1) % 9 + 1 = (P - S) % 9 by omega]
  · obtain ⟨hwords, hintg⟩ := intg_of_not_head hne
    have hle := length_skipZeros_le g.full
    have hlt : ∀ w ∈ skipZeros g.full, w < digBase := fun w hw =>
      hmax (h.full w ((g.full.dropWhile_sublist _).mem hw))
    rw [hwords, hintg]
    refine ⟨?_, hlt, by omega, ?_⟩
    · rw [roundUp_eq]
      simp
    · intro w hw
      have hpos : 0 < (skipZeros g.full).length := length_pos_of_mem (List.mem_of_mem_head? hw)
      rw [show (9 * (skipZeros g.full).length - 1) % 9 + 1 = 9 by omega]
      exact hlt w (List.mem_of_mem_head? hw)

end Groups

/-! ## Strings that are not the bytes of a number -/

def IsZero (d : Decimal) : Prop :=
  d.intg = 1 ∧ d.frac = 0 ∧ d.sign = false ∧ d.intgWords = [0]

/-- A number of the type with precision `P` and scale `S`. -/
structure IsDecoded (d : Decimal) (P S : ℕ) : Prop where
  words : ∀ w ∈ d.intgWords ++ d.fracWords, w < digBase
  intg_le : d.intg ≤ P - S
  frac_eq : d.frac = S
  head : ∀ w ∈ d.intgWords.head?, w < 10 ^ ((d.intg - 1) % 9 + 1)

def Conforms (src : List Byte) (dst : Decimal) (P S : ℕ) : Prop :=
  (bin2decimal src dst P S).2 = .badNum ∧ (bin2decimal src dst P S).1.IsZero ∨
    (bin2decimal src dst P S).2 = .ok ∧
      ((bin2decimal src dst P S).1.IsDecoded P S ∨ (bin2decimal src dst P S).1.IsZero)

theorem isZero_makeZero {d : Decimal} (h : 0 < d.buf.length) : d.makeZero.IsZero := by
  obtain ⟨w, l, hbuf⟩ := exists_cons_of_length_pos h
  refine ⟨rfl, rfl, rfl, ?_⟩
  change (d.buf.set 0 0).take (roundUp 1) = [0]
  rw [hbuf]
  rfl

theorem decimalSize_pos (hP : 0 < P) : 0 < decimalSize P S := by
  unfold decimalSize roundUp digPerDec1
  omega

theorem length_groupsOf : (groupsOf src P S).full.length = (P - S) / 9 ∧
    (groupsOf src P S).fields.length = S / 9 :=
  ⟨length_wordsAt, length_wordsAt⟩

theorem Groups.Accepted.isDecoded (h : (groupsOf src P S).Accepted P S)
    (hhead : (P - S) % 9 ≠ 0 → (groupsOf src P S).head.toNat < 10 ^ ((P - S) % 9)) (hP : 0 < P)
    (hdst : decimalSize P S ≤ dst.buf.length) :
    (accepted src dst P S).IsDecoded P S ∨ (accepted src dst P S).IsZero := by
  have hpos : 0 < dst.buf.length := (decimalSize_pos hP).trans_le hdst
  obtain ⟨hint, hfrac, hlt, hle, hfirst⟩ := h.stored hhead length_groupsOf.1 length_groupsOf.2
  by_cases hzero : (groupsOf src P S).intg P S = 0 ∧ S = 0
  · rw [accepted_of_zero hzero]
    refine .inr (isZero_makeZero ?_)
    simp only [Groups.toDecimal, length_append, length_drop]
    omega
  · rw [accepted_of_not_zero hzero]
    obtain ⟨hdint, hdfrac⟩ := words_of_buf
      (d := (groupsOf src P S).toDecimal (decide (maskOf src ≠ 0)) dst P S) rfl hint hfrac
    exact .inl ⟨by rw [hdint, hdfrac]; exact hlt, hle, rfl, by rw [hdint]; exact hfirst⟩

theorem not_isDecoded (hne : (P - S) % 9 ≠ 0)
    (hhead : 10 ^ ((P - S) % 9) ≤ (groupsOf src P S).head.toNat) :
    ¬ ((accepted src dst P S).IsDecoded P S ∨ (accepted src dst P S).IsZero) := by
  have hhead' : (groupsOf src P S).head ≠ 0 := by
    intro hzero
    rw [hzero] at hhead
    exact absurd hhead (not_le.mpr (by positivity))
  obtain ⟨hwords, hintg⟩ := Groups.intg_of_head ⟨hne, hhead'⟩
  have hacc : accepted src dst P S = _ := accepted_of_not_zero (by omega)
  have hfirst : (accepted src dst P S).intgWords.head? = some (groupsOf src P S).head.toNat := by
    have hround : 0 < roundUp (P - S) := by
      rw [roundUp_pos (by omega)]
      omega
    rw [hacc, Decimal.intgWords, Groups.toDecimal, hwords, hintg, cons_append,
      take_cons hround]
    rfl
  rintro (h | h)
  · have hlt := h.head _ hfirst
    rw [hacc, Groups.toDecimal, hintg, show (P - S - 1) % 9 + 1 = (P - S) % 9 by omega] at hlt
    omega
  · rw [h.2.2.2] at hfirst
    have hzero := Option.some.inj hfirst
    rw [← hzero] at hhead
    exact absurd hhead (not_le.mpr (by positivity))

/-- The number is rejected or of the type unless the first group has a digit too many, which
passes the check of `bin2decimal`, and no other group fails its own. -/
theorem conforms_iff (hP : 0 < P) (hdst : decimalSize P S ≤ dst.buf.length) :
    Conforms src dst P S ↔ ¬(groupsOf src P S).Accepted P S ∨ (P - S) % 9 = 0 ∨
      (groupsOf src P S).head.toNat < 10 ^ ((P - S) % 9) := by
  have hpos : 0 < dst.buf.length := (decimalSize_pos hP).trans_le hdst
  unfold Conforms
  by_cases hacc : (groupsOf src P S).Accepted P S
  · rw [bin2decimal_of_accepted hdst hacc]
    simp only [reduceCtorEq, false_and, false_or, true_and, hacc, not_true_eq_false]
    constructor
    · intro h
      by_contra hbad
      rw [not_or, not_lt] at hbad
      exact not_isDecoded hbad.1 hbad.2 h
    · rintro (hzero | hlt)
      · exact hacc.isDecoded (fun hne => absurd hzero hne) hP hdst
      · exact hacc.isDecoded (fun _ => hlt) hP hdst
  · rw [bin2decimal_of_not_accepted hdst hacc]
    simp [isZero_makeZero hpos, hacc]

/-- One byte for one digit: the value nine is accepted. -/
theorem conforms_iff_digit :
    Conforms [0x89#8] ⟨0, 0, false, [0]⟩ 1 0 ↔
      ¬(groupsOf [0x89#8] 1 0).Accepted 1 0 ∨ (1 - 0) % 9 = 0 ∨
        (groupsOf [0x89#8] 1 0).head.toNat < 10 ^ ((1 - 0) % 9) :=
  conforms_iff (by decide) (by decide)

/-- And so is the value fifteen. -/
theorem not_conforms_digit : ¬ Conforms [0x8F#8] ⟨0, 0, false, [0]⟩ 1 0 := by
  have heq : bin2decimal [0x8F#8] ⟨0, 0, false, [0]⟩ 1 0 = (⟨1, 0, false, [15]⟩, .ok) := by
    decide +kernel
  unfold Conforms
  rintro (⟨herror, -⟩ | ⟨-, hdecoded | hzero⟩)
  · cases herror
  · exact absurd (hdecoded.head 15 rfl) (by decide)
  · exact absurd hzero.2.2.2 (by decide)

end MySQL.Strings.Decimal
