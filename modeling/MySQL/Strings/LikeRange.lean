import MySQL.Strings.Wildcmp

/-!
# The range of a LIKE pattern

The optimizer reads the rows between two keys that are taken from the beginning of a pattern.
-/

namespace MySQL.Strings

open List MySQL.Lib

/-- A `CHARSET_INFO` of one byte; `binsort` is `MY_CS_BINSORT`. -/
structure Collation where
  sortOrder : UInt8 → UInt8
  maxSortChar : UInt8
  binsort : Bool

structure LikeRange where
  minStr : List UInt8
  maxStr : List UInt8
  minLength : ℕ
  maxLength : ℕ

section Code

variable (cs : Collation) (escape wOne wMany : UInt8)

/-- The loop of `my_like_range_simple`: the characters for `min_str` and `max_str`, and whether it
ended at `w_many`. -/
def likeBounds : ℕ → List UInt8 → List (UInt8 × UInt8) × Bool
  | 0, _ => ([], false)
  | _ + 1, [] => ([], false)
  | room + 1, w :: ptr =>
    if w = escape ∧ ptr ≠ [] then
      (likeBounds room ptr.tail).map (cons (ptr.headD 0, ptr.headD 0)) id
    else if w = wOne then (likeBounds room ptr).map (cons (0, cs.maxSortChar)) id
    else if w = wMany then ([], true)
    else (likeBounds room ptr).map (cons (w, w)) id

def myLikeRangeSimple (ptr : List UInt8) (resLength : ℕ) : LikeRange :=
  let (bounds, many) := likeBounds cs escape wOne wMany resLength ptr
  let rest := resLength - bounds.length
  if many then
    { minStr := bounds.map Prod.fst ++ replicate rest 0
      maxStr := bounds.map Prod.snd ++ replicate rest cs.maxSortChar
      minLength := if cs.binsort then bounds.length else resLength
      maxLength := resLength }
  else
    { minStr := bounds.map Prod.fst ++ replicate rest 32
      maxStr := bounds.map Prod.snd ++ replicate rest 32
      minLength := bounds.length
      maxLength := bounds.length }

end Code

def Collation.weight (cs : Collation) (c : UInt8) : ℕ := (cs.sortOrder c).toNat

/-- The weights of a key of `n` characters, with spaces behind the end of the string. -/
def Collation.key (cs : Collation) (n : ℕ) (str : List UInt8) : List ℕ :=
  (range n).map fun i => cs.weight (str.getD i 32)

def LikeRange.Contains (r : LikeRange) (cs : Collation) (n : ℕ) (str : List UInt8) : Prop :=
  cs.key n (r.minStr.take r.minLength) ≤ cs.key n str ∧
    cs.key n str ≤ cs.key n (r.maxStr.take r.maxLength)

/-! ## The inputs that are read wrongly -/

/-- The characters for `w_one` up to the first `w_many` are the lowest ones, and what follows in a
key of `n` characters is below spaces. -/
def SinksBelow (cs : Collation) : ℕ → List (WildToken UInt8) → List UInt8 → Prop
  | n + 1, .many :: _, str => cs.key (n + 1) str < cs.key (n + 1) []
  | n + 1, .one :: p, c :: str => cs.weight c = cs.weight 0 ∧ SinksBelow cs n p str
  | n + 1, .lit _ :: p, _ :: str => SinksBelow cs n p str
  | _, _, _ => False

/-- A wild card in the first `n` characters, up to the first `w_many`, is the escape character, and
another character follows. -/
def EscapesWild (escape wOne wMany : UInt8) (n : ℕ) (ptr : List UInt8) : Prop :=
  (escape = wOne ∨ escape = wMany) ∧
    ∃ i < n, i + 1 < ptr.length ∧ ptr[i]? = some escape ∧ wMany ∉ ptr.take i

variable {cs : Collation} {escape wOne wMany w c : UInt8} {str ptr : List UInt8} {n : ℕ}
  {toks : List (WildToken UInt8)} {p : UInt8 × UInt8} {b : List (UInt8 × UInt8) × Bool}

/-! ## Keys -/

theorem Collation.key_cons : cs.key (n + 1) (c :: str) = cs.weight c :: cs.key n str := by
  rw [key, range_succ_eq_map, map_cons, map_map]
  rfl

theorem Collation.key_take : cs.key n (str.take n) = cs.key n str := by
  refine map_congr_left fun i hi => ?_
  rw [getD_eq_getElem?_getD, getElem?_take_of_lt (mem_range.mp hi), getD_eq_getElem?_getD]

theorem cons_le_cons_of_le {a a' : ℕ} {l l' : List ℕ} (ha : a ≤ a') (hl : l ≤ l') :
    a :: l ≤ a' :: l' := by
  rcases ha.lt_or_eq with hlt | rfl
  · exact le_of_lt (Lex.rel hlt)
  · exact cons_le_cons a hl

theorem Collation.key_mono {s t : List UInt8}
    (h : ∀ i < n, cs.weight (s.getD i 32) ≤ cs.weight (t.getD i 32)) :
    cs.key n s ≤ cs.key n t := by
  have hmap (l : List ℕ) (hl : ∀ i ∈ l, i < n) : l.map (fun i => cs.weight (s.getD i 32)) ≤
      l.map fun i => cs.weight (t.getD i 32) := by
    induction l with
    | nil => exact le_rfl
    | cons i l ih =>
      exact cons_le_cons_of_le (h i (hl i mem_cons_self))
        (ih fun j hj => hl j (mem_cons_of_mem i hj))
  exact hmap _ fun i hi => mem_range.mp hi

theorem getD_replicate {x d : UInt8} {i : ℕ} (hi : i < n) : (replicate n x).getD i d = x := by
  rw [getD_eq_getElem?_getD, getElem?_replicate_of_lt hi]
  rfl

/-! ## The range of a pattern that is read as it should be -/

/-- How a string that matches stands to the bounds. -/
structure Bounded (cs : Collation) (n : ℕ) (toks : List (WildToken UInt8)) (str : List UInt8)
    (b : List (UInt8 × UInt8) × Bool) : Prop where
  below_iff : cs.key n str < cs.key n (b.1.map Prod.fst) ↔ SinksBelow cs n toks str
  many_of_below : SinksBelow cs n toks str → b.2 = true
  low : b.2 = true → cs.key n (b.1.map Prod.fst ++ replicate (n - b.1.length) 0) ≤ cs.key n str
  high : cs.key n str ≤ cs.key n (b.1.map Prod.snd ++
    if b.2 then replicate (n - b.1.length) cs.maxSortChar else [])

theorem Bounded.cons {t : WildToken UInt8} (h : Bounded cs n toks str b)
    (hmin : cs.weight p.1 ≤ cs.weight c) (hmax : cs.weight c ≤ cs.weight p.2)
    (hsinks : SinksBelow cs (n + 1) (t :: toks) (c :: str) ↔
      cs.weight c = cs.weight p.1 ∧ SinksBelow cs n toks str) :
    Bounded cs (n + 1) (t :: toks) (c :: str) (b.map (cons p) id) := by
  obtain ⟨bounds, many⟩ := b
  refine ⟨?_, fun hbelow => h.many_of_below (hsinks.mp hbelow).2, fun hmany => ?_, ?_⟩
  · have hnot : ¬ cs.weight c < cs.weight p.1 := Nat.not_lt.mpr hmin
    simp only [Prod.map_fst, map_cons, Collation.key_cons, cons_lt_cons_iff, hnot, false_or,
      h.below_iff, hsinks]
  · simp only [Prod.map_fst, map_cons, length_cons, Nat.add_sub_add_right, cons_append,
      Collation.key_cons]
    exact cons_le_cons_of_le hmin (h.low hmany)
  · simp only [Prod.map_fst, Prod.map_snd, id, map_cons, length_cons, Nat.add_sub_add_right,
      cons_append, Collation.key_cons]
    exact cons_le_cons_of_le hmax h.high

theorem likeBounds_literal (hone : w ≠ wOne) (hmany : w ≠ wMany) :
    likeBounds cs escape wOne wMany (n + 1) (w :: ptr) =
      (likeBounds cs escape wOne wMany n (unescape (w = escape) w ptr).2).map
        (cons ((unescape (w = escape) w ptr).1, (unescape (w = escape) w ptr).1)) id := by
  simp only [likeBounds, hone, hmany, if_false]
  cases ptr with
  | nil => rw [if_neg (fun h => h.2 rfl), unescape]
  | cons w' ptr =>
    rw [unescape]
    split_ifs with h h' h'
    · rfl
    · exact absurd h.1 h'
    · exact absurd ⟨h', cons_ne_nil w' ptr⟩ h
    · rfl

theorem EscapesWild.cons (h : EscapesWild escape wOne wMany n ptr) (hw : w ≠ wMany) :
    EscapesWild escape wOne wMany (n + 1) (w :: ptr) := by
  obtain ⟨hwild, i, hi, hlen, hget, hmany⟩ := h
  refine ⟨hwild, i + 1, by omega, by simpa using hlen, hget, ?_⟩
  rw [take_succ_cons, mem_cons, not_or]
  exact ⟨Ne.symm hw, hmany⟩

section

variable (h0 : ∀ c, cs.weight 0 ≤ cs.weight c)
  (hmax : ∀ c, cs.weight c ≤ cs.weight cs.maxSortChar)

include h0 hmax

theorem likeBounds_bounded (hwild : wOne ≠ wMany) (hnot : ¬ EscapesWild escape wOne wMany n ptr)
    (hmatch : WildMatches (SameOrder cs.sortOrder) (readWildstr escape wOne wMany false ptr) str) :
    Bounded cs n (readWildstr escape wOne wMany false ptr) str
      (likeBounds cs escape wOne wMany n ptr) := by
  induction n generalizing str ptr with
  | zero => exact ⟨iff_of_false (lt_irrefl _) id, False.elim, fun _ => le_rfl, le_rfl⟩
  | succ n ih =>
    cases ptr with
    | nil =>
      rw [readWildstr] at hmatch ⊢
      rw [wildMatches_nil.mp hmatch]
      exact ⟨iff_of_false (lt_irrefl _) id, False.elim, fun h => Bool.noConfusion h, le_rfl⟩
    | cons w ptr =>
      rw [readWildstr] at hmatch ⊢
      have hplain (hwild : w = wOne ∨ w = wMany) : ¬(w = escape ∧ ptr ≠ []) := by
        rintro ⟨rfl, hptr⟩
        refine hnot ⟨hwild, 0, Nat.succ_pos n, ?_, rfl, not_mem_nil⟩
        simpa using length_pos_iff.mpr hptr
      by_cases hw : w = wOne
      · rw [if_pos hw] at hmatch ⊢
        cases str with
        | nil => exact absurd hmatch not_wildMatches_one_nil
        | cons s str =>
          rw [likeBounds, if_neg (hplain (.inl hw)), if_pos hw]
          exact (ih (fun h => hnot (h.cons (hw ▸ hwild))) (wildMatches_one_cons.mp hmatch)).cons
            (h0 s) (hmax s) Iff.rfl
      rw [if_neg hw] at hmatch ⊢
      by_cases hw' : w = wMany
      · rw [if_pos hw'] at hmatch ⊢
        rw [likeBounds, if_neg (hplain (.inr hw')), if_neg hw, if_pos hw']
        refine ⟨Iff.rfl, fun _ => rfl, fun _ => ?_, ?_⟩
        · exact Collation.key_mono fun i hi => by
            rw [map_nil, nil_append, length_nil, Nat.sub_zero, getD_replicate hi]
            exact h0 _
        · exact Collation.key_mono fun i hi => by
            rw [map_nil, nil_append, if_pos rfl, length_nil, Nat.sub_zero, getD_replicate hi]
            exact hmax _
      · have hescape : (w = escape ∧ (false = true → escape < 128)) ↔ w = escape := by simp
        simp only [if_neg hw', unescape_congr hescape] at hmatch ⊢
        rw [likeBounds_literal hw hw']
        cases str with
        | nil => exact absurd hmatch not_wildMatches_lit_nil
        | cons s str =>
          obtain ⟨hsame, hrest⟩ := wildMatches_lit_cons.mp hmatch
          have hweight : cs.weight _ = cs.weight s := congrArg UInt8.toNat hsame
          refine (ih (fun h => ?_) hrest).cons hweight.le hweight.ge
            (and_iff_right hweight.symm).symm
          by_cases hw'' : w = escape
          · rcases h.1 with heq | heq
            · exact hw (hw''.trans heq)
            · exact hw' (hw''.trans heq)
          · refine hnot (EscapesWild.cons ?_ hw')
            cases ptr with
            | nil => exact h
            | cons w' ptr => rwa [unescape, if_neg hw''] at h

end

/-! ## A wild card as escape character -/

theorem exists_outside (hwild : wOne ≠ wMany) (hflat : ¬ ∀ c, cs.weight c = cs.weight 0)
    (h : EscapesWild escape wOne wMany n ptr) :
    ∃ str, WildMatches (SameOrder cs.sortOrder) (readWildstr escape wOne wMany false ptr) str ∧
      ((∀ lo, cs.key n str <
          cs.key n ((likeBounds cs escape wOne wMany n ptr).1.map Prod.fst ++ lo)) ∨
        ∀ hi, cs.key n ((likeBounds cs escape wOne wMany n ptr).1.map Prod.snd ++ hi) <
          cs.key n str) := by
  obtain ⟨hescape, i, hi, hlen, hget, hmany⟩ := h
  have hsame (d : UInt8) : ∃ c, SameOrder cs.sortOrder c d := ⟨d, rfl⟩
  induction ptr generalizing n i with
  | nil => simp at hlen
  | cons w ptr ih =>
    obtain ⟨n, rfl⟩ := Nat.exists_eq_succ_of_ne_zero (Nat.ne_zero_of_lt hi)
    rw [length_cons] at hlen
    by_cases hw : w = escape
    · -- the next character is a literal for the range only
      subst hw
      have hptr : ptr ≠ [] := length_pos_iff.mp (by omega)
      obtain ⟨c, hc⟩ : ∃ c, cs.weight c ≠ cs.weight (ptr.headD 0) := by
        by_contra hall
        simp only [not_exists, not_not] at hall
        exact hflat fun c => (hall c).trans (hall 0).symm
      obtain ⟨s, hs⟩ := exists_wildMatches hsame ⟨0⟩ (readWildstr w wOne wMany (w = wMany) ptr)
      refine ⟨c :: s, ?_, ?_⟩
      · rw [readWildstr]
        rcases hescape with rfl | rfl
        · rw [decide_eq_false hwild] at hs
          rw [if_pos rfl]
          exact wildMatches_one_cons.mpr hs
        · rw [decide_eq_true rfl] at hs
          rw [if_neg hwild.symm, if_pos rfl]
          exact ⟨s, suffix_cons c s, hs⟩
      · rw [likeBounds, if_pos ⟨rfl, hptr⟩]
        simp only [Prod.map_fst, map_cons, cons_append, Collation.key_cons, cons_lt_cons_iff]
        rcases Nat.lt_or_gt_of_ne hc with hlt | hlt
        · exact .inl fun _ => .inl hlt
        · exact .inr fun _ => .inl hlt
    · obtain ⟨i, rfl⟩ : ∃ i', i = i' + 1 := by
        cases i with
        | zero => exact absurd (Option.some.inj hget) hw
        | succ i => exact ⟨i, rfl⟩
      rw [take_succ_cons, mem_cons, not_or] at hmany
      obtain ⟨str, hmatch, hout⟩ := ih i (Nat.lt_of_succ_lt_succ hi) (by omega) hget hmany.2
      have hescape' : ¬(w = escape ∧ ptr ≠ []) := fun h => hw h.1
      rw [readWildstr, likeBounds, if_neg hescape']
      by_cases hone : w = wOne
      · -- the character that leaves it to the rest
        simp only [if_pos hone, Prod.map_fst, map_cons, cons_append]
        rcases hout with hlow | hhigh
        · refine ⟨0 :: str, wildMatches_one_cons.mpr hmatch, .inl fun lo => ?_⟩
          rw [Collation.key_cons, Collation.key_cons]
          exact cons_lt_cons_iff.mpr (.inr ⟨rfl, hlow lo⟩)
        · refine ⟨cs.maxSortChar :: str, wildMatches_one_cons.mpr hmatch, .inr fun hi => ?_⟩
          rw [Collation.key_cons, Collation.key_cons]
          exact cons_lt_cons_iff.mpr (.inr ⟨rfl, hhigh hi⟩)
      · have hread : unescape (w = escape ∧ (false = true → escape < 128)) w ptr = (w, ptr) := by
          cases ptr with
          | nil => rfl
          | cons w' ptr => exact if_neg fun h => hw h.1
        simp only [if_neg hone, if_neg (Ne.symm hmany.1), hread, Prod.map_fst, map_cons,
          cons_append]
        refine ⟨w :: str, wildMatches_lit_cons.mpr ⟨rfl, hmatch⟩, ?_⟩
        simp only [Collation.key_cons, cons_lt_cons_iff, lt_irrefl, false_or, true_and]
        exact hout

/-! ## The range -/

/-- The two keys, with what is put behind the characters of the pattern. -/
theorem contains_iff : (myLikeRangeSimple cs escape wOne wMany ptr n).Contains cs n str ↔
    cs.key n ((likeBounds cs escape wOne wMany n ptr).1.map Prod.fst ++
      if (likeBounds cs escape wOne wMany n ptr).2 ∧ cs.binsort = false then
        replicate (n - (likeBounds cs escape wOne wMany n ptr).1.length) 0 else []) ≤
      cs.key n str ∧
    cs.key n str ≤ cs.key n ((likeBounds cs escape wOne wMany n ptr).1.map Prod.snd ++
      if (likeBounds cs escape wOne wMany n ptr).2 then
        replicate (n - (likeBounds cs escape wOne wMany n ptr).1.length) cs.maxSortChar
      else []) := by
  unfold myLikeRangeSimple LikeRange.Contains
  generalize likeBounds cs escape wOne wMany n ptr = b
  obtain ⟨bounds, many⟩ := b
  have hlen : (bounds.map Prod.fst).length = bounds.length := length_map ..
  have hlen' : (bounds.map Prod.snd).length = bounds.length := length_map ..
  cases many with
  | false =>
    simp only [Bool.false_eq_true, if_false, false_and, append_nil]
    rw [← hlen, take_left, hlen, ← hlen', take_left]
  | true =>
    simp only [if_true, true_and, Collation.key_take]
    cases cs.binsort with
    | false => simp only [Bool.false_eq_true, if_false, if_true, Collation.key_take]
    | true =>
      simp only [if_true, Bool.true_eq_false, if_false, append_nil]
      rw [← hlen, take_left]

/-- A string that matches is in the range, unless with `MY_CS_BINSORT` what it has in the place of
`w_many` is below spaces.  If a wild card that is the escape character too is read, then a string
that matches is outside, but for weights that are all the same. -/
theorem myLikeRangeSimple_contains_iff (h0 : ∀ c, cs.weight 0 ≤ cs.weight c)
    (hmax : ∀ c, cs.weight c ≤ cs.weight cs.maxSortChar) (hwild : wOne ≠ wMany)
    (ptr : List UInt8) (n : ℕ) :
    (¬ EscapesWild escape wOne wMany n ptr → ∀ next str,
      myWildcmp8bit cs.sortOrder (charInt escape) (charInt wOne) (charInt wMany) next str ptr = 0 →
        ((myLikeRangeSimple cs escape wOne wMany ptr n).Contains cs n str ↔
          ¬(cs.binsort = true ∧
            SinksBelow cs n (readWildstr escape wOne wMany false ptr) str))) ∧
    (EscapesWild escape wOne wMany n ptr → (¬ ∀ c, cs.weight c = cs.weight 0) → ∃ str,
      (∀ next, next ≠ wMany → myWildcmp8bit cs.sortOrder (charInt escape) (charInt wOne)
        (charInt wMany) next str ptr = 0) ∧
        ¬(myLikeRangeSimple cs escape wOne wMany ptr n).Contains cs n str) ∧
    ((∀ c, cs.weight c = cs.weight 0) → ∀ str,
      (myLikeRangeSimple cs escape wOne wMany ptr n).Contains cs n str) := by
  refine ⟨fun hnot next str hmatch => ?_, fun hescapes hflat => ?_, fun hflat str => ?_⟩
  · have h := likeBounds_bounded h0 hmax hwild hnot ((myWildcmp8bit_eq_zero_iff str).mp hmatch).1
    rw [contains_iff, and_iff_left h.high, ← h.below_iff]
    cases hmany : (likeBounds cs escape wOne wMany n ptr).2 with
    | false =>
      have hbelow : ¬ cs.key n str < cs.key n
          ((likeBounds cs escape wOne wMany n ptr).1.map Prod.fst) := fun hlt => by
        rw [h.below_iff] at hlt
        exact Bool.false_ne_true (hmany.symm.trans (h.many_of_below hlt))
      simp only [Bool.false_eq_true, false_and, if_false, append_nil, hbelow, and_false,
        not_false_eq_true, iff_true]
      exact not_lt.mp hbelow
    | true =>
      cases cs.binsort with
      | false => simpa using h.low hmany
      | true => simp
  · obtain ⟨str, hmatch, hout⟩ := exists_outside hwild hflat hescapes
    refine ⟨str, fun next hnext => ?_, fun hin => ?_⟩
    · exact (myWildcmp8bit_eq_zero_iff str).mpr ⟨hmatch, fun h => hnext h.1⟩
    · rw [contains_iff] at hin
      rcases hout with hlow | hhigh
      · exact not_lt.mpr hin.1 (hlow _)
      · exact not_lt.mpr hin.2 (hhigh _)
  · have hweight (s t : List UInt8) : cs.key n s ≤ cs.key n t :=
      Collation.key_mono fun _ _ => ((hflat _).trans (hflat _).symm).le
    exact ⟨hweight _ _, hweight _ _⟩

/-- With `latin1_bin` the string `abc` is in the range of `ab%`. -/
theorem myLikeRangeSimple_contains_abc :
    myWildcmp8bit id (charInt 92) (charInt 95) (charInt 37) 0 [97, 98, 99] [97, 98, 37] = 0 ∧
      (myLikeRangeSimple ⟨id, 255, true⟩ 92 95 37 [97, 98, 37] 4).Contains ⟨id, 255, true⟩ 4
        [97, 98, 99] := by
  have hzero (c : UInt8) : Collation.weight ⟨id, 255, true⟩ 0 ≤
      Collation.weight ⟨id, 255, true⟩ c := Nat.zero_le _
  have hmax (c : UInt8) : Collation.weight ⟨id, 255, true⟩ c ≤
      Collation.weight ⟨id, 255, true⟩ 255 := Nat.le_of_lt_succ c.toNat_lt
  have hmatch : myWildcmp8bit id (charInt 92) (charInt 95) (charInt 37) 0 [97, 98, 99]
      [97, 98, 37] = 0 := by decide +kernel
  have hread : readWildstr 92 95 37 false [97, 98, 37] = [.lit 97, .lit 98, .many] := by
    decide +kernel
  refine ⟨hmatch, ((myLikeRangeSimple_contains_iff hzero hmax (by decide) _ 4).1 ?_ 0 _ hmatch).mpr
    fun h => ?_⟩
  · rintro ⟨heq | heq, -⟩
    · exact absurd heq (by decide)
    · exact absurd heq (by decide)
  · rw [hread] at h
    have hbelow : Collation.key ⟨id, 255, true⟩ 2 [99] < Collation.key ⟨id, 255, true⟩ 2 [] := h.2
    exact absurd hbelow (by decide)

/-- With `latin1_bin` the string `a` with the character 1 matches `a%` and is below the range. -/
theorem myLikeRangeSimple_binsort :
    myWildcmp8bit id (charInt 92) (charInt 95) (charInt 37) 0 [97, 1] [97, 37] = 0 ∧
      ¬ (myLikeRangeSimple ⟨id, 255, true⟩ 92 95 37 [97, 37] 2).Contains ⟨id, 255, true⟩ 2
        [97, 1] := by
  refine ⟨by decide +kernel, fun h => absurd h.1 ?_⟩
  decide +kernel

end MySQL.Strings
