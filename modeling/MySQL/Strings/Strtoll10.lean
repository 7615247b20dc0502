import MySQL.Lib.Radix

/-!
# Reading a number of 64 bits

`my_strtoll10` gathers nine, nine and two digits in three words, and compares them with the words of
the largest number.
-/

namespace MySQL.Strings

open List Lib

/-- What `*error` is set to: 0, -1, `ERANGE` or `EDOM`. -/
inductive StrtollError
  | ok
  | negative
  | erange
  | edom
deriving DecidableEq, Repr

/-- The result as a `longlong`, and the characters from `*endptr` on. -/
structure StrtollResult where
  value : BitVec 64
  error : StrtollError
  endptr : List UInt8
deriving DecidableEq, Repr

/-- `(c= (*s-'0')) <= 9` for an `uchar`. -/
def isDigit (c : UInt8) : Bool := c - 48 ≤ 9

def digitValue (c : UInt8) : ℕ := (c - 48).toNat

def isBlank (c : UInt8) : Bool := c = 32 ∨ c = 9

def gatherDigits : ℕ → ℕ → List UInt8 → ℕ × ℕ × List UInt8
  | 0, acc, s => (acc, 0, s)
  | n + 1, acc, [] => (acc, n + 1, [])
  | n + 1, acc, c :: s =>
    if isDigit c then gatherDigits n (acc * 10 + digitValue c) s else (acc, n + 1, c :: s)

/-- `MAX_NEGATIVE_NUMBER` or `ULONGLONG_MAX` -/
def strtollLimit (negative : Bool) : ℕ :=
  if negative then 9223372036854775808 else 18446744073709551615

def strtollError (negative : Bool) : StrtollError := if negative then .negative else .ok

variable (negative : Bool) (li : ℕ) (s : List UInt8)

/-- The ends `end_i`, `end_i_and_j` and `end3`. -/
def strtollEnd : StrtollResult :=
  ⟨if negative then -BitVec.ofNat 64 li else BitVec.ofNat 64 li, strtollError negative, s⟩

/-- `overflow` -/
def strtollOverflow : StrtollResult :=
  ⟨if negative then BitVec.ofInt 64 (-9223372036854775808)
    else BitVec.ofNat 64 18446744073709551615, .erange, s⟩

/-- `no_conv` -/
def strtollNoConv (nptr : List UInt8) : StrtollResult := ⟨0, .edom, nptr⟩

/-- `end4` -/
def strtollEnd4 : StrtollResult :=
  if negative = true ∧ li > 9223372036854775808 then strtollOverflow negative s
  else strtollEnd negative li s

/-- The test on the last digits.  It asks for a large `k` also if `j` is too large. -/
def strtollExceeds (limit i j k : ℕ) : Prop :=
  i > limit / 100000000000 ∨ (i = limit / 100000000000 ∧
    ((j > limit % 100000000000 / 100 ∨ j = limit % 100000000000 / 100) ∧ k > limit % 100))

instance (limit i j k : ℕ) : Decidable (strtollExceeds limit i j k) :=
  inferInstanceAs (Decidable (_ ∨ _))

/-- The next one or two digits, the first of which is `c`. -/
def strtollLast (i j c : ℕ) (s : List UInt8) : StrtollResult :=
  match s with
  | [] => strtollEnd4 negative (i * 10000000000 + j * 10 + c) []
  | c' :: s' =>
    if isDigit c' then
      let k := c * 10 + digitValue c'
      if (s'.head?.any isDigit) = true then strtollOverflow negative s'
      else if strtollExceeds (strtollLimit negative) i j k then strtollOverflow negative s'
      else ⟨BitVec.ofNat 64 (i * 100000000000 + j * 100 + k), strtollError negative, s'⟩
    else strtollEnd4 negative (i * 10000000000 + j * 10 + c) (c' :: s')

def strtollSecond (i : ℕ) (s : List UInt8) : StrtollResult :=
  let (j, left, s) := gatherDigits 9 0 s
  if left > 0 then strtollEnd negative (i * 10 ^ (9 - left) + j) s
  else
    match s with
    | [] => strtollEnd negative (i * 1000000000 + j) []
    | c :: s' =>
      if isDigit c then strtollLast negative i j (digitValue c) s'
      else strtollEnd negative (i * 1000000000 + j) (c :: s')

def strtollFirst (i n : ℕ) (s : List UInt8) : StrtollResult :=
  let (i, left, s) := gatherDigits n i s
  if left > 0 ∨ s = [] then strtollEnd negative i s else strtollSecond negative i s

def strtollNumber (nptr : List UInt8) (negative : Bool) (s : List UInt8) : StrtollResult :=
  match s with
  | [] => strtollNoConv nptr
  | c :: s' =>
    if c = 48 then
      let s := s'.dropWhile (· = 48)
      if s = [] then strtollEnd negative 0 [] else strtollFirst negative 0 9 s
    else if isDigit c then strtollFirst negative (digitValue c) 8 s'
    else strtollNoConv nptr

/-- `my_strtoll10` for the characters from `nptr` to `*endptr`. -/
def myStrtoll10 (nptr : List UInt8) : StrtollResult :=
  match nptr.dropWhile isBlank with
  | [] => strtollNoConv nptr
  | c :: s =>
    if c = 45 then strtollNumber nptr true s
    else if c = 43 then strtollNumber nptr false s
    else strtollNumber nptr false (c :: s)

/-! ## Gathering digits -/

variable {nptr ds rest : List UInt8}

theorem digitValue_lt {c : UInt8} (h : isDigit c = true) : digitValue c < 10 := by
  have hle : (c - 48).toNat ≤ 9 := UInt8.le_iff_toNat_le.1 (of_decide_eq_true h)
  exact Nat.lt_succ_of_le hle

def digitsValue (ds : List UInt8) : ℕ := evalDigits 10 (ds.map digitValue)

theorem digitsValue_append (ds es : List UInt8) :
    digitsValue (ds ++ es) = digitsValue ds * 10 ^ es.length + digitsValue es := by
  rw [digitsValue, map_append, evalDigits_append, length_map]
  rfl

theorem digitsValue_cons (c : UInt8) (ds : List UInt8) :
    digitsValue (c :: ds) = digitValue c * 10 ^ ds.length + digitsValue ds := by
  rw [digitsValue, map_cons, evalDigits_cons, length_map]
  rfl

theorem digitsValue_lt (h : ∀ c ∈ ds, isDigit c = true) : digitsValue ds < 10 ^ ds.length := by
  have hlt := evalDigits_lt (by
    intro d hd
    obtain ⟨c, hc, rfl⟩ := List.mem_map.1 hd
    exact digitValue_lt (h c hc))
  rwa [length_map] at hlt

def NoDigitAhead (rest : List UInt8) : Prop := rest.head?.any isDigit = false

theorem gatherDigits_of_noDigitAhead (h : NoDigitAhead rest) (n acc : ℕ) :
    gatherDigits n acc rest = (acc, n, rest) := by
  cases n with
  | zero => rfl
  | succ n =>
    cases rest with
    | nil => rfl
    | cons c rest =>
      have hc : isDigit c = false := h
      rw [gatherDigits, hc]
      rfl

theorem gatherDigits_append (h : NoDigitAhead rest) (hds : ∀ c ∈ ds, isDigit c = true) (n acc : ℕ) :
    gatherDigits n acc (ds ++ rest) =
      (acc * 10 ^ (ds.take n).length + digitsValue (ds.take n), n - ds.length,
        ds.drop n ++ rest) := by
  induction ds generalizing n acc with
  | nil =>
    rw [nil_append, gatherDigits_of_noDigitAhead h]
    simp [digitsValue]
  | cons c ds ih =>
    rw [forall_mem_cons] at hds
    cases n with
    | zero => simp [gatherDigits, digitsValue]
    | succ n =>
      rw [cons_append, gatherDigits, if_pos hds.1, ih hds.2, take_succ_cons,
        digitsValue_cons, length_cons, drop_succ_cons, length_cons,
        Nat.add_sub_add_right]
      ring_nf

section Words

variable (h : NoDigitAhead rest) (hds : ∀ c ∈ ds, isDigit c = true)

include h hds

theorem strtollSecond_eq (i : ℕ) :
    strtollSecond negative i (ds ++ rest) =
      match ds.drop 9 with
      | [] => strtollEnd negative (i * 10 ^ ds.length + digitsValue ds) rest
      | c :: cs =>
        strtollLast negative i (digitsValue (ds.take 9)) (digitValue c) (cs ++ rest) := by
  rw [strtollSecond, gatherDigits_append h hds, Nat.zero_mul, Nat.zero_add]
  dsimp only
  cases hdrop : ds.drop 9 with
  | nil =>
    have hlen := drop_eq_nil_iff.mp hdrop
    rw [take_of_length_le hlen, nil_append]
    split_ifs with hleft
    · rw [Nat.sub_sub_self hlen]
    · have hnine : ds.length = 9 := by omega
      rw [hnine]
      cases rest with
      | nil => rfl
      | cons c rest =>
        have hc : isDigit c = false := h
        simp only [hc, Bool.false_eq_true, if_false]
        rfl
  | cons c cs =>
    have hleft : ¬ 9 - ds.length > 0 := by
      have hlen := congrArg length hdrop
      rw [length_drop, length_cons] at hlen
      omega
    have hc : isDigit c = true := hds c (mem_of_mem_drop (hdrop ▸ mem_cons_self))
    simp only [if_neg hleft, cons_append, hc, if_true]

theorem strtollFirst_eq :
    strtollFirst negative 0 9 (ds ++ rest) =
      match ds.drop 18 with
      | [] => strtollEnd negative (digitsValue ds) rest
      | c :: cs => strtollLast negative (digitsValue (ds.take 9))
          (digitsValue ((ds.drop 9).take 9)) (digitValue c) (cs ++ rest) := by
  have hdrop : ∀ c ∈ ds.drop 9, isDigit c = true := fun c hc => hds c (mem_of_mem_drop hc)
  have hsecond := strtollSecond_eq negative h hdrop (digitsValue (ds.take 9))
  rw [drop_drop, ← digitsValue_append, take_append_drop] at hsecond
  rw [strtollFirst, gatherDigits_append h hds, Nat.zero_mul, Nat.zero_add]
  dsimp only
  split_ifs with hend
  · have hlen : ds.length ≤ 9 := by
      rcases hend with hleft | hnil
      · omega
      · exact drop_eq_nil_iff.mp (append_eq_nil_iff.mp hnil).1
    rw [take_of_length_le hlen, drop_eq_nil_of_le hlen, drop_eq_nil_of_le (by omega), nil_append]
  · exact hsecond

end Words

/-- The last one or two digits, or more of them. -/
inductive LastDigits (i j c : ℕ) (rest : List UInt8) : List UInt8 → StrtollResult → Prop
  | one : LastDigits i j c rest []
      (strtollEnd4 negative (i * 10000000000 + j * 10 + c) rest)
  | two {c' : UInt8} : LastDigits i j c rest [c']
      (if strtollExceeds (strtollLimit negative) i j (c * 10 + digitValue c') then
        strtollOverflow negative rest
      else ⟨BitVec.ofNat 64 (i * 100000000000 + j * 100 + (c * 10 + digitValue c')),
        strtollError negative, rest⟩)
  | more {c' d : UInt8} {cs : List UInt8} : LastDigits i j c rest (c' :: d :: cs)
      (strtollOverflow negative (d :: cs ++ rest))

theorem strtollLast_lastDigits (h : NoDigitAhead rest) {cs : List UInt8}
    (hcs : ∀ d ∈ cs, isDigit d = true) (i j c : ℕ) :
    LastDigits negative i j c rest cs (strtollLast negative i j c (cs ++ rest)) := by
  match cs with
  | [] =>
    have hlast : strtollLast negative i j c ([] ++ rest) =
        strtollEnd4 negative (i * 10000000000 + j * 10 + c) rest := by
      cases rest with
      | nil => rfl
      | cons d rest =>
        have hd : isDigit d = false := h
        simp only [nil_append, strtollLast, hd, Bool.false_eq_true, if_false]
    rw [hlast]
    exact .one
  | [c'] =>
    have hc' : isDigit c' = true := hcs c' mem_cons_self
    have hhead : rest.head?.any isDigit = false := h
    simp only [cons_append, nil_append, strtollLast, hc', if_true, hhead,
      Bool.false_eq_true, if_false]
    exact .two
  | c' :: d :: cs =>
    have hc' : isDigit c' = true := hcs c' mem_cons_self
    have hd : isDigit d = true := hcs d (mem_cons_of_mem _ mem_cons_self)
    have hlast : strtollLast negative i j c (c' :: d :: cs ++ rest) =
        strtollOverflow negative (d :: cs ++ rest) := by
      simp only [cons_append, strtollLast, hc', if_true, List.head?_cons, Option.any_some,
        hd]
    rw [hlast]
    exact .more

/-! ## The whole string -/

/-- Blanks, a sign or none, digits and the rest.  Without digits and sign the rest starts with
neither a blank nor a sign. -/
structure IsNumeral (nptr blanks sign ds rest : List UInt8) : Prop where
  eq : nptr = blanks ++ (sign ++ (ds ++ rest))
  allBlank : ∀ c ∈ blanks, isBlank c = true
  isSign : sign = [] ∨ sign = [43] ∨ sign = [45]
  allDigit : ∀ c ∈ ds, isDigit c = true
  noDigit : NoDigitAhead rest
  noNumber : ds = [] → sign = [] → ∀ c ∈ rest.head?, isBlank c = false ∧ c ≠ 43 ∧ c ≠ 45

/-- `my_strtoll10` returns the number if it can be represented. -/
def StrtollExact (nptr ds rest : List UInt8) (r : StrtollResult) : Prop :=
  if ds = [] then r = ⟨0, .edom, nptr⟩
  else if digitsValue ds ≤ strtollLimit negative then
    r = ⟨BitVec.ofInt 64 (if negative then -(digitsValue ds : ℤ) else digitsValue ds),
      if negative then .negative else .ok, rest⟩
  else r.error = .erange ∧ r.value = BitVec.ofInt 64
    (if negative then -9223372036854775808 else 18446744073709551615)

theorem NoDigitAhead.ne_zero {c : UInt8} (h : NoDigitAhead (c :: rest)) :
    isDigit c = false ∧ c ≠ 48 := by
  have hdigit : isDigit c = false := h
  refine ⟨hdigit, ?_⟩
  rintro rfl
  exact absurd hdigit (by decide)

theorem dropWhile_zero_append (h : NoDigitAhead rest) (ds : List UInt8) :
    (ds ++ rest).dropWhile (· = 48) = ds.dropWhile (· = 48) ++ rest := by
  have hrest : rest.dropWhile (· = 48) = rest := by
    cases rest with
    | nil => rfl
    | cons c rest => exact dropWhile_cons_of_neg (by simpa using h.ne_zero.2)
  rw [dropWhile_append, hrest]
  split
  · next hnil => rw [isEmpty_iff.1 hnil, nil_append]
  · rfl

theorem digitsValue_dropWhile (ds : List UInt8) :
    digitsValue (ds.dropWhile (· = 48)) = digitsValue ds := by
  induction ds with
  | nil => rfl
  | cons c ds ih =>
    by_cases hc : c = 48
    · have hzero : digitValue c = 0 := by
        rw [hc]
        rfl
      rw [dropWhile_cons_of_pos (by simpa using hc), ih, digitsValue_cons, hzero,
        Nat.zero_mul, Nat.zero_add]
    · rw [dropWhile_cons_of_neg (by simpa using hc)]

theorem strtollNumber_of_digits (h : NoDigitAhead rest) (hds : ∀ c ∈ ds, isDigit c = true)
    (hne : ds ≠ []) :
    strtollNumber nptr negative (ds ++ rest) =
      strtollFirst negative 0 9 (ds.dropWhile (· = 48) ++ rest) := by
  cases ds with
  | nil => exact absurd rfl hne
  | cons c ds =>
    rw [cons_append, strtollNumber]
    by_cases hc : c = 48
    · rw [dropWhile_cons_of_pos (by simpa using hc), ← dropWhile_zero_append h]
      dsimp only
      split_ifs with hnil
      · rw [hnil]
        rfl
      · rfl
    · have hdigit : isDigit c = true := hds c mem_cons_self
      rw [if_neg hc, dropWhile_cons_of_neg (by simpa using hc),
        cons_append]
      simp only [strtollFirst, gatherDigits, if_pos hdigit, Nat.zero_mul, Nat.zero_add]

theorem strtollNumber_of_noDigitAhead (h : NoDigitAhead rest) :
    strtollNumber nptr negative rest = strtollNoConv nptr := by
  cases rest with
  | nil => rfl
  | cons c rest =>
    rw [strtollNumber, if_neg h.ne_zero.2, h.ne_zero.1]
    rfl

theorem dropWhile_blank (blanks s : List UInt8) (h : ∀ c ∈ blanks, isBlank c = true)
    (hs : ∀ c ∈ s.head?, isBlank c = false) : (blanks ++ s).dropWhile isBlank = s := by
  rw [dropWhile_append_of_pos h]
  cases s with
  | nil => rfl
  | cons c s => exact dropWhile_cons_of_neg (by rw [hs c rfl]; exact Bool.false_ne_true)

theorem not_blank_of_isDigit {c : UInt8} (h : isDigit c = true) :
    isBlank c = false ∧ c ≠ 43 ∧ c ≠ 45 := by
  refine ⟨?_, ?_, ?_⟩
  · by_contra hblank
    rw [Bool.not_eq_false] at hblank
    rcases of_decide_eq_true hblank with rfl | rfl <;> exact absurd h (by decide)
  · rintro rfl
    exact absurd h (by decide)
  · rintro rfl
    exact absurd h (by decide)

theorem myStrtoll10_of_isNumeral {blanks sign : List UInt8}
    (h : IsNumeral nptr blanks sign ds rest) :
    myStrtoll10 nptr = strtollNumber nptr (sign = [45]) (ds ++ rest) := by
  have hstart : sign = [] → ∀ c ∈ (ds ++ rest).head?, isBlank c = false ∧ c ≠ 43 ∧ c ≠ 45 := by
    intro hsign c hc
    cases ds with
    | nil => exact h.noNumber rfl hsign c hc
    | cons d ds =>
      obtain rfl : d = c := Option.some.inj hc
      exact not_blank_of_isDigit (h.allDigit d mem_cons_self)
  have hhead : ∀ c ∈ (sign ++ (ds ++ rest)).head?, isBlank c = false := by
    intro c hc
    rcases h.isSign with hsign | hsign | hsign <;> rw [hsign] at hc
    · exact (hstart hsign c hc).1
    · obtain rfl := Option.some.inj hc
      rfl
    · obtain rfl := Option.some.inj hc
      rfl
  have hdrop : nptr.dropWhile isBlank = sign ++ (ds ++ rest) := by
    rw [h.eq, dropWhile_blank _ _ h.allBlank hhead]
  rw [myStrtoll10, hdrop]
  rcases h.isSign with hsign | hsign | hsign
  · have hnot := hstart hsign
    rw [hsign, nil_append]
    cases hs : ds ++ rest with
    | nil => rfl
    | cons c s =>
      rw [hs] at hnot
      obtain ⟨-, hplus, hminus⟩ := hnot c rfl
      dsimp only
      rw [if_neg hminus, if_neg hplus]
      rfl
  · rw [hsign]
    rfl
  · rw [hsign]
    rfl

/-! ## Exact results -/

theorem strtollEnd_exact (hne : ds ≠ []) {v : ℕ} (hv : v = digitsValue ds)
    (hle : digitsValue ds ≤ strtollLimit negative) :
    StrtollExact negative nptr ds rest (strtollEnd negative v rest) := by
  rw [StrtollExact, if_neg hne, if_pos hle, hv]
  cases negative with
  | false => rw [if_neg Bool.false_ne_true]; rfl
  | true =>
    rw [if_pos rfl, BitVec.ofInt_neg]
    rfl

theorem strtollOverflow_exact (hne : ds ≠ []) (hlt : strtollLimit negative < digitsValue ds)
    (s : List UInt8) : StrtollExact negative nptr ds rest (strtollOverflow negative s) := by
  rw [StrtollExact, if_neg hne, if_neg hlt.not_ge]
  refine ⟨rfl, ?_⟩
  cases negative <;> rfl

def StrtollMissed (v : ℕ) : Prop :=
  18446744073709551615 < v ∧ v / 100000000000 = 184467440 ∧ v % 100 ≤ 15

instance (v : ℕ) : Decidable (StrtollMissed v) :=
  inferInstanceAs (Decidable (_ ∧ _))

theorem strtollLimit_false : strtollLimit false = 18446744073709551615 := rfl

theorem strtollLimit_true : strtollLimit true = 9223372036854775808 := rfl

theorem strtollLimit_ge : 9223372036854775808 ≤ strtollLimit negative := by
  cases negative <;> decide

theorem exact_of_le_eighteen (hne : ds ≠ []) (hlt : digitsValue ds < 10 ^ 18) :
    StrtollExact negative nptr ds rest (strtollEnd negative (digitsValue ds) rest) ∧
      ¬StrtollMissed (digitsValue ds) := by
  refine ⟨strtollEnd_exact negative hne rfl ?_, fun hmissed => ?_⟩
  · have hlimit := strtollLimit_ge negative
    omega
  · have hlarge := hmissed.1
    omega

theorem exact_twenty_iff (hne : ds ≠ []) {i j k : ℕ} (hi : i < 1000000000) (hj : j < 1000000000)
    (hk : k < 100) (hv : digitsValue ds = i * 100000000000 + j * 100 + k) :
    StrtollExact false nptr ds rest
        (if strtollExceeds (strtollLimit false) i j k then strtollOverflow false rest
        else ⟨BitVec.ofNat 64 (i * 100000000000 + j * 100 + k), strtollError false, rest⟩) ↔
      ¬StrtollMissed (digitsValue ds) := by
  have hquot : digitsValue ds / 100000000000 = i := by omega
  have hmod : digitsValue ds % 100 = k := by omega
  rw [StrtollMissed]
  split_ifs with hexceeds
  · refine iff_of_true (strtollOverflow_exact false hne ?_ rest) ?_
    · simp only [strtollExceeds, strtollLimit_false] at hexceeds ⊢
      omega
    · simp only [strtollExceeds, strtollLimit_false] at hexceeds
      omega
  · by_cases hle : digitsValue ds ≤ strtollLimit false
    · refine iff_of_true (strtollEnd_exact false hne hv.symm hle) ?_
      rw [strtollLimit_false] at hle
      omega
    · -- the number is too large, and the test has not seen it
      refine iff_of_false ?_ ?_
      · rw [StrtollExact, if_neg hne, if_neg hle]
        exact fun hexact => absurd hexact.1 (show ¬StrtollError.ok = .erange by decide)
      · simp only [strtollExceeds, strtollLimit_false] at hexceeds hle
        omega

theorem exact_last_iff {cs : List UInt8} {i j c : ℕ} (h : NoDigitAhead rest) (hne : ds ≠ [])
    (hcs : ∀ d ∈ cs, isDigit d = true) (hi : i < 10 ^ 9) (hj : j < 10 ^ 9) (hk : c < 10)
    (hfirst : 100000000 ≤ i) (hv : digitsValue ds = i * 10 ^ (9 + (cs.length + 1)) +
      (j * 10 ^ (cs.length + 1) + (c * 10 ^ cs.length + digitsValue cs))) :
    StrtollExact negative nptr ds rest (strtollLast negative i j c (cs ++ rest)) ↔
      ¬(negative = false ∧ StrtollMissed (digitsValue ds)) := by
  have hlast := strtollLast_lastDigits negative h hcs i j c
  generalize strtollLast negative i j c (cs ++ rest) = r at hlast ⊢
  cases hlast with
  | one =>
    have hnineteen : digitsValue ds = i * 10000000000 + j * 10 + c := by
      rw [hv]
      simp [digitsValue]
      ring
    refine iff_of_true ?_ ?_
    · rw [strtollEnd4]
      split_ifs with hover
      · obtain ⟨rfl, hover⟩ := hover
        exact strtollOverflow_exact true hne (hnineteen ▸ hover) rest
      · refine strtollEnd_exact negative hne hnineteen.symm ?_
        cases negative with
        | false =>
          rw [strtollLimit_false]
          omega
        | true =>
          rw [hnineteen]
          exact not_lt.1 fun hlt => hover ⟨rfl, hlt⟩
    · rintro ⟨-, hmissed⟩
      have hlarge := hmissed.1
      omega
  | @two c' =>
    have hc' := digitValue_lt (hcs c' mem_cons_self)
    have htwenty : digitsValue ds = i * 100000000000 + j * 100 + (c * 10 + digitValue c') := by
      rw [hv]
      simp [digitsValue]
      ring
    cases negative with
    | false =>
      rw [exact_twenty_iff hne hi hj (by omega) htwenty]
      simp
    | true =>
      have hexceeds : strtollExceeds (strtollLimit true) i j (c * 10 + digitValue c') := by
        left
        rw [strtollLimit_true]
        omega
      rw [if_pos hexceeds]
      refine iff_of_true (strtollOverflow_exact true hne ?_ rest) fun hfalse => ?_
      · rw [strtollLimit_true]
        omega
      · exact absurd hfalse.1.symm Bool.false_ne_true
  | @more c' d cs =>
    have hpow : 10 ^ 12 ≤ 10 ^ (9 + ((c' :: d :: cs).length + 1)) := by
      apply Nat.pow_le_pow_right (by decide)
      rw [length_cons, length_cons]
      omega
    have hlarge : 100000000 * 10 ^ 12 ≤ digitsValue ds := by
      rw [hv]
      exact (Nat.mul_le_mul hfirst hpow).trans (Nat.le_add_right _ _)
    refine iff_of_true (strtollOverflow_exact negative hne ?_ _) ?_
    · cases negative with
      | false => exact (show _ < 100000000 * 10 ^ 12 by decide).trans_le hlarge
      | true => exact (show _ < 100000000 * 10 ^ 12 by decide).trans_le hlarge
    · rintro ⟨-, -, hquot, -⟩
      omega

theorem le_digitsValue_of_head {as : List UInt8} (hlen : as.length = 9)
    (hhead : as.head? ≠ some 48) : 100000000 ≤ digitsValue as := by
  cases as with
  | nil => exact absurd hlen (by decide)
  | cons c as =>
    have hpos : digitValue c ≠ 0 := by
      intro hzero
      have hc : c - 48 = 0 := UInt8.toNat_inj.1 hzero
      have hback : c - 48 + 48 = 0 + 48 := congrArg (· + 48) hc
      rw [UInt8.sub_add_cancel] at hback
      exact hhead (congrArg some hback)
    have height : as.length = 8 := by simpa using hlen
    rw [digitsValue_cons, height]
    omega

/-- `my_strtoll10` is exact, except for some numbers without a minus sign that are just too
large. -/
theorem myStrtoll10_exact_iff {nptr blanks sign ds rest : List UInt8}
    (h : IsNumeral nptr blanks sign ds rest) :
    StrtollExact (sign = [45]) nptr ds rest (myStrtoll10 nptr) ↔
      ¬(sign ≠ [45] ∧ StrtollMissed (digitsValue ds)) := by
  rw [myStrtoll10_of_isNumeral h]
  by_cases hne : ds = []
  · rw [hne, nil_append, strtollNumber_of_noDigitAhead _ h.noDigit]
    refine iff_of_true ?_ fun hmissed => absurd hmissed.2 (by decide)
    rfl
  · have hsig : ∀ c ∈ ds.dropWhile (· = 48), isDigit c = true := fun c hc =>
      h.allDigit c ((dropWhile_sublist _).subset hc)
    have hv := digitsValue_dropWhile ds
    have hhead : (ds.dropWhile (· = 48)).head? ≠ some 48 := by
      intro hhead
      have hnot := List.head?_dropWhile_not (fun c : UInt8 => decide (c = 48)) ds
      rw [hhead] at hnot
      exact absurd hnot (by decide)
    rw [strtollNumber_of_digits _ h.noDigit h.allDigit hne]
    generalize ds.dropWhile (· = 48) = sig at hsig hv hhead ⊢
    rw [strtollFirst_eq _ h.noDigit hsig]
    cases hdrop : sig.drop 18 with
    | nil =>
      have hlt : digitsValue ds < 10 ^ 18 := hv ▸ (digitsValue_lt hsig).trans_le
        (Nat.pow_le_pow_right (by decide) (drop_eq_nil_iff.mp hdrop))
      obtain ⟨hexact, hnot⟩ : StrtollExact (sign = [45]) nptr ds rest _ ∧ _ :=
        exact_of_le_eighteen _ hne hlt
      rw [hv]
      exact iff_of_true hexact fun hmissed => hnot hmissed.2
    | cons c cs =>
      have hlen := congrArg length hdrop
      rw [length_drop, length_cons] at hlen
      have hsplit : sig = sig.take 9 ++ ((sig.drop 9).take 9 ++ c :: cs) := by
        rw [← hdrop, show sig.drop 18 = (sig.drop 9).drop 9 by rw [drop_drop], take_append_drop,
          take_append_drop]
      have hlen₁ : (sig.take 9).length = 9 := length_take_of_le (by omega)
      have hlen₂ : ((sig.drop 9).take 9).length = 9 :=
        length_take_of_le (by rw [length_drop]; omega)
      have hparts := hsig
      rw [hsplit, forall_mem_append, forall_mem_append, forall_mem_cons] at hparts
      obtain ⟨has, hbs, hc, hcs⟩ := hparts
      have hi := digitsValue_lt has
      have hj := digitsValue_lt hbs
      have hfirst : (sig.take 9).head? ≠ some 48 := by rwa [List.head?_take]
      rw [hlen₁] at hi
      rw [hlen₂] at hj
      rw [exact_last_iff _ h.noDigit hne hcs hi hj (digitValue_lt hc)
        (le_digitsValue_of_head hlen₁ hfirst)]
      · simp
      · conv_lhs => rw [← hv, hsplit]
        rw [digitsValue_append, digitsValue_append, digitsValue_cons, length_append, hlen₂,
          length_cons]

/-- `-12` and a blank. -/
theorem myStrtoll10_exact_iff_twelve :
    myStrtoll10 [32, 45, 49, 50, 32] = ⟨BitVec.ofInt 64 (-12), .negative, [32]⟩ := by
  have hnumeral : IsNumeral [32, 45, 49, 50, 32] [32] [45] [49, 50] [32] :=
    ⟨rfl, by decide +kernel, Or.inr (Or.inr rfl), by decide +kernel, rfl,
      fun hne => absurd hne (cons_ne_nil _ _)⟩
  have hexact := (myStrtoll10_exact_iff hnumeral).2 (by decide)
  exact hexact

/-- `18446744073709551700` is read as 84. -/
theorem myStrtoll10_wrong :
    myStrtoll10 [49, 56, 52, 52, 54, 55, 52, 52, 48, 55, 51, 55, 48, 57, 53, 53, 49, 55, 48, 48] =
      ⟨84, .ok, []⟩ := by
  decide

end MySQL.Strings
