import MySQL.Lib.Wild

/-!
# LIKE for character sets of one byte

A string is matched against a pattern from left to right, and a search for a literal behind the wild
card for any sequence calls the function again.  The pattern has no terminator: the byte that
follows it in memory is given too.
-/

namespace MySQL.Strings

open List

open MySQL.Lib WildToken

/-- A `char` is signed. -/
def charInt (c : UInt8) : ℤ := c.toBitVec.toInt

/-- The character that is compared, and what is behind it: an escape character is passed over unless
it is the last one. -/
def unescape (isEscape : Prop) [Decidable isEscape] (w : UInt8) (wild : List UInt8) :
    UInt8 × List UInt8 :=
  match wild with
  | [] => (w, [])
  | w' :: wild' => if isEscape then (w', wild') else (w, wild)

theorem length_unescape (isEscape : Prop) [Decidable isEscape] (w : UInt8) (wild : List UInt8) :
    (unescape isEscape w wild).2.length ≤ wild.length := by
  cases wild with
  | nil => exact le_rfl
  | cons w' wild' =>
    rw [unescape]
    split_ifs
    · exact Nat.le_succ _
    · exact le_rfl

section Code

variable (sortOrder : UInt8 → UInt8) (escape wOne wMany : ℤ) (next : UInt8)

/-- The loop that searches for `cmp`, with the call for what is behind it.  It ends if the next
character of the pattern is `w_many`. -/
def wildcmpSearch (cmp : UInt8) (manyNext : Bool) (call : List UInt8 → ℤ) : List UInt8 → ℤ
  | [] => -1
  | s :: str =>
    if sortOrder s ≠ cmp then wildcmpSearch cmp manyNext call str
    else
      let tmp := call str
      if tmp ≤ 0 then tmp
      else if str ≠ [] ∧ manyNext = false then wildcmpSearch cmp manyNext call str
      else -1

mutual

/-- The loop of `my_wildcmp_8bit` over the pattern. -/
def wildcmpLoop (result : ℤ) (str wild : List UInt8) : ℤ :=
  match wild with
  | [] => if str ≠ [] then 1 else 0
  | w :: wild =>
    if charInt w ≠ wMany ∧ charInt w ≠ wOne then
      let literal := unescape (charInt w = escape) w wild
      match str with
      | [] => 1
      | s :: str =>
        if sortOrder literal.1 ≠ sortOrder s then 1
        else if literal.2 = [] then if str ≠ [] then 1 else 0
        else wildcmpLoop 1 str literal.2
    else if charInt w = wOne then
      match str with
      | [] => result
      | _ :: str => wildcmpLoop result str wild
    else wildcmpMany str wild
termination_by wild.length
decreasing_by
  · have := length_unescape (charInt w = escape) w wild
    simp only [length_cons]
    omega
  · simp
  · simp

/-- Behind `w_many`: all wild cards are skipped, and the next character is searched for. -/
def wildcmpMany (str wild : List UInt8) : ℤ :=
  match wild with
  | [] => 0
  | w :: wild =>
    if charInt w = wMany then wildcmpMany str wild
    else if charInt w = wOne then
      match str with
      | [] => -1
      | _ :: str => wildcmpMany str wild
    else if str = [] then -1
    else
      -- `cmp` is unsigned
      let literal := unescape ((w.toNat : ℤ) = escape) w wild
      wildcmpSearch sortOrder (sortOrder literal.1)
        (charInt (literal.2.headD next) = wMany) (fun str => wildcmpLoop (-1) str literal.2) str
termination_by wild.length
decreasing_by
  · simp
  · simp
  · have := length_unescape ((w.toNat : ℤ) = escape) w wild
    simp only [length_cons]
    omega

end

def myWildcmp8bit (str wild : List UInt8) : ℤ :=
  wildcmpLoop sortOrder escape wOne wMany next (-1) str wild

end Code

/-! ## The meaning of a pattern -/

section Meaning

variable (escape wOne wMany : UInt8)

def readPattern : List UInt8 → List (WildToken UInt8)
  | [] => []
  | w :: wild =>
    if w = wOne then one :: readPattern wild
    else if w = wMany then many :: readPattern wild
    else
      lit (unescape (w = escape) w wild).1 :: readPattern (unescape (w = escape) w wild).2
termination_by wild => wild.length
decreasing_by
  · simp
  · simp
  · have := length_unescape (w = escape) w wild
    simp only [length_cons]
    omega

/-- What the function takes a pattern for: behind `w_many` an escape character from 128 on is a
literal. -/
def readWildstr (behindMany : Bool) : List UInt8 → List (WildToken UInt8)
  | [] => []
  | w :: wild =>
    if w = wOne then one :: readWildstr behindMany wild
    else if w = wMany then many :: readWildstr true wild
    else
      let isEscape := w = escape ∧ (behindMany = true → escape < 128)
      lit (unescape isEscape w wild).1 :: readWildstr false (unescape isEscape w wild).2
termination_by wild => wild.length
decreasing_by
  · simp
  · simp
  · have := length_unescape (w = escape ∧ (behindMany = true → escape < 128)) w wild
    simp only [length_cons]
    omega

/-- Characters with equal `sort_order`. -/
def SameOrder (sortOrder : UInt8 → UInt8) (s w : UInt8) : Prop := sortOrder w = sortOrder s

def Like (sortOrder : UInt8 → UInt8) (str wild : List UInt8) : Prop :=
  WildMatches (SameOrder sortOrder) (readPattern escape wOne wMany wild) str

end Meaning

/-! ## The verdict of the function -/

theorem charInt_inj {c d : UInt8} : charInt c = charInt d ↔ c = d := by
  rw [charInt, charInt, BitVec.toInt_inj, UInt8.toBitVec_inj]

theorem toNat_eq_charInt {c d : UInt8} : (c.toNat : ℤ) = charInt d ↔ c = d ∧ d < 128 := by
  have hnat : d.toNat = d.toBitVec.toNat := rfl
  rw [charInt, BitVec.toInt_eq_toNat_cond, ← UInt8.toNat_inj, UInt8.lt_iff_toNat_lt,
    show (128 : UInt8).toNat = 128 from rfl]
  split_ifs <;> omega

section Verdict

variable {sortOrder : UInt8 → UInt8} {escape wOne wMany next : UInt8}

theorem wildcmpSearch_verdict {stop : Prop} {p : List (WildToken UInt8)} {d : UInt8}
    {manyNext : Bool} {call : List UInt8 → ℤ}
    (hcall : ∀ str, WildVerdict (SameOrder sortOrder) stop p str (call str))
    (hstop : manyNext = true → p = [] ∧ stop ∨ p.head? = some many)
    (hgo : manyNext = false → p = [] → ¬stop) (str : List UInt8) :
    WildVerdict (SameOrder sortOrder) stop (many :: lit d :: p) str
      (wildcmpSearch sortOrder (sortOrder d) manyNext call str) := by
  induction str with
  | nil => exact WildVerdict.many_lit_nil
  | cons s str ih =>
    rw [wildcmpSearch]
    by_cases hsame : SameOrder sortOrder s d
    · rw [if_neg (not_not.2 (Eq.symm hsame))]
      by_cases htmp : call str ≤ 0
      · rw [if_pos htmp]
        exact WildVerdict.many_lit_found hsame (hcall str) htmp
      · rw [if_neg htmp]
        by_cases hstr : str = []
        · subst hstr
          exact WildVerdict.many_lit_end (hcall []) htmp
        · cases hmany : manyNext with
          | false =>
            rw [if_pos ⟨hstr, rfl⟩]
            rw [hmany] at ih
            exact WildVerdict.many_lit_next hsame (hcall str) htmp (hgo hmany) ih
          | true =>
            rw [if_neg (fun h => Bool.noConfusion h.2)]
            rcases hstop hmany with ⟨rfl, hends⟩ | hhead
            · exact WildVerdict.many_lit_stop hsame hends hstr
            · rcases (hcall str).range with h | h | h
              · omega
              · omega
              · exact absurd hhead h.2
    · rw [if_pos (fun h => hsame (Eq.symm h))]
      exact WildVerdict.many_lit_cons_of_not hsame ih

theorem unescape_congr {P Q : Prop} [Decidable P] [Decidable Q] (h : P ↔ Q) (w : UInt8)
    (wild : List UInt8) : unescape P w wild = unescape Q w wild := by
  cases wild with
  | nil => rfl
  | cons w' wild' => simp only [unescape, h]

variable (sortOrder escape wOne wMany next)

def LoopTells (wild : List UInt8) : Prop :=
  ∀ result, result = 1 ∨ result = -1 → ∀ str,
    WildVerdict (SameOrder sortOrder) (next = wMany)
      (readWildstr escape wOne wMany false wild) str
      (wildcmpLoop sortOrder (charInt escape) (charInt wOne) (charInt wMany) next result str wild)

/-- The search behind `w_many` tells what it should. -/
def ManyTells (wild : List UInt8) : Prop :=
  wMany ≠ wOne → ∀ str,
    WildVerdict (SameOrder sortOrder) (next = wMany)
      (many :: readWildstr escape wOne wMany true wild) str
      (wildcmpMany sortOrder (charInt escape) (charInt wOne) (charInt wMany) next str wild)

variable {sortOrder escape wOne wMany next} {w : UInt8} {wild : List UInt8}

theorem loopTells_nil : LoopTells sortOrder escape wOne wMany next [] := by
  intro result _ str
  rw [readWildstr, wildcmpLoop]
  exact WildVerdict.nil

theorem manyTells_nil : ManyTells sortOrder escape wOne wMany next [] := by
  intro _ str
  rw [readWildstr, wildcmpMany]
  exact WildVerdict.many_nil

section

variable
  (hloop : ∀ wild', wild'.length ≤ wild.length → LoopTells sortOrder escape wOne wMany next wild')
  (hmany : ManyTells sortOrder escape wOne wMany next wild)

include hloop hmany

theorem loopTells_cons : LoopTells sortOrder escape wOne wMany next (w :: wild) := by
  intro result hresult str
  rw [readWildstr, wildcmpLoop.eq_def]
  simp only [ne_eq, charInt_inj]
  by_cases hone : w = wOne
  · rw [if_pos hone, if_neg (fun h => h.2 hone), if_pos hone]
    cases str with
    | nil => exact WildVerdict.one_nil hresult
    | cons s str => exact (hloop wild le_rfl result hresult str).one_cons
  · rw [if_neg hone]
    by_cases hw : w = wMany
    · rw [if_pos hw, if_neg (fun h => h.1 hw), if_neg hone]
      exact hmany (hw ▸ hone) str
    · have hescape : (w = escape ∧ (false = true → escape < 128)) ↔ w = escape := by simp
      rw [if_neg hw, if_pos ⟨hw, hone⟩, unescape_congr hescape]
      cases str with
      | nil => exact WildVerdict.lit_nil
      | cons s str =>
        dsimp only
        by_cases hsame : SameOrder sortOrder s (unescape (w = escape) w wild).1
        · rw [if_neg (not_not.2 (show sortOrder _ = sortOrder s from hsame))]
          apply WildVerdict.lit_cons hsame
          by_cases hend : (unescape (w = escape) w wild).2 = []
          · rw [hend, readWildstr]
            exact WildVerdict.nil
          · rw [if_neg hend]
            exact hloop _ (length_unescape (w = escape) w wild) 1 (Or.inl rfl) str
        · rw [if_pos (show ¬sortOrder _ = sortOrder s from hsame)]
          exact WildVerdict.lit_cons_of_not hsame

theorem manyTells_cons : ManyTells sortOrder escape wOne wMany next (w :: wild) := by
  intro hne str
  rw [readWildstr, wildcmpMany.eq_def]
  simp only [charInt_inj, toNat_eq_charInt]
  by_cases hw : w = wMany
  · rw [if_neg (hw ▸ hne), if_pos hw, if_pos hw]
    exact (hmany hne str).many_many
  · rw [if_neg hw, if_neg hw]
    by_cases hone : w = wOne
    · rw [if_pos hone, if_pos hone]
      cases str with
      | nil => exact WildVerdict.many_one_nil
      | cons s str => exact (hmany hne str).many_one_cons
    · rw [if_neg hone, if_neg hone]
      by_cases hstr : str = []
      · rw [hstr]
        exact WildVerdict.many_lit_nil
      · rw [if_neg hstr]
        have hescape : (w = escape ∧ (True → escape < 128)) ↔ w = escape ∧ escape < 128 := by
          rw [true_imp_iff]
        rw [unescape_congr hescape]
        have hlength := length_unescape (w = escape ∧ escape < 128) w wild
        generalize unescape (w = escape ∧ escape < 128) w wild = literal at hlength ⊢
        obtain ⟨d, rest⟩ := literal
        apply wildcmpSearch_verdict
        · exact hloop rest hlength (-1) (Or.inr rfl)
        · intro hnext
          rw [decide_eq_true_iff] at hnext
          cases rest with
          | nil => exact Or.inl ⟨by rw [readWildstr], hnext⟩
          | cons w' rest =>
            right
            rw [headD_cons] at hnext
            rw [readWildstr, if_neg (hnext ▸ hne), if_pos hnext]
            rfl
        · intro hnext hend
          rw [decide_eq_false_iff_not] at hnext
          cases rest with
          | nil => exact hnext
          | cons w' rest =>
            rw [readWildstr] at hend
            split_ifs at hend

end

theorem wildcmp_tells (wild : List UInt8) :
    LoopTells sortOrder escape wOne wMany next wild ∧
      ManyTells sortOrder escape wOne wMany next wild := by
  -- both functions call each other with a shorter pattern only
  induction hn : wild.length using Nat.strong_induction_on generalizing wild with
  | _ n ih =>
    cases wild with
    | nil => exact ⟨loopTells_nil, manyTells_nil⟩
    | cons w wild =>
      have hlt (wild' : List UInt8) (hle : wild'.length ≤ wild.length) :=
        ih wild'.length (by rw [← hn, length_cons]; omega) wild' rfl
      exact ⟨loopTells_cons (fun _ h => (hlt _ h).1) (hlt wild le_rfl).2,
        manyTells_cons (fun _ h => (hlt _ h).1) (hlt wild le_rfl).2⟩

theorem myWildcmp8bit_eq_zero_iff (str : List UInt8) :
    myWildcmp8bit sortOrder (charInt escape) (charInt wOne) (charInt wMany) next str wild = 0 ↔
      WildMatches (SameOrder sortOrder) (readWildstr escape wOne wMany false wild) str ∧
        ¬(next = wMany ∧
          WildEarly (SameOrder sortOrder) (readWildstr escape wOne wMany false wild) str) :=
  ((wildcmp_tells wild).1 (-1) (Or.inr rfl) str).zero_iff

end Verdict

/-! ## LIKE -/

section Like

variable {sortOrder : UInt8 → UInt8} {escape wOne wMany next : UInt8} {wild : List UInt8}

/-- The function is right about every string for a pattern that it reads as it should, if the byte
behind the pattern is not `w_many` or the pattern does not end with a literal that is searched for:
then it gives up at the first place at which the literal is found. -/
theorem myWildcmp8bit_like_iff
    (hread : readWildstr escape wOne wMany false wild = readPattern escape wOne wMany wild) :
    (∀ str, myWildcmp8bit sortOrder (charInt escape) (charInt wOne) (charInt wMany) next str wild =
        0 ↔ Like escape wOne wMany sortOrder str wild) ↔
      ¬(next = wMany ∧ endsManyLit (readPattern escape wOne wMany wild) = true) := by
  simp only [myWildcmp8bit_eq_zero_iff, hread, Like]
  constructor
  · rintro hall ⟨hnext, hends⟩
    have hsame (d : UInt8) : ∃ c, SameOrder sortOrder c d := ⟨d, rfl⟩
    obtain ⟨u, hu⟩ := exists_wildMatches hsame ⟨0⟩ (readPattern escape wOne wMany wild)
    obtain ⟨v, hv, hlonger⟩ := hu.exists_longer hends
    exact ((hall (u ++ v)).mpr hlonger).2 ⟨hnext, hends, u, v, rfl, hv, hu⟩
  · intro hnot str
    exact and_iff_left fun hearly => hnot ⟨hearly.1, hearly.2.1⟩

/-- An escape character below 128 is read as it should be. -/
theorem readWildstr_eq (hescape : escape < 128) (behindMany : Bool) :
    readWildstr escape wOne wMany behindMany wild = readPattern escape wOne wMany wild := by
  have hiff (behindMany : Bool) (w : UInt8) :
      (w = escape ∧ (behindMany = true → escape < 128)) ↔ w = escape := by simp [hescape]
  induction hn : wild.length using Nat.strong_induction_on generalizing wild behindMany with
  | _ n ih =>
    cases wild with
    | nil => rw [readWildstr, readPattern]
    | cons w wild =>
      have hlt (wild' : List UInt8) (hle : wild'.length ≤ wild.length) (behindMany : Bool) :=
        ih wild'.length (by rw [← hn, length_cons]; omega) behindMany rfl
      rw [readWildstr, readPattern]
      dsimp only
      rw [unescape_congr (hiff behindMany w), hlt wild le_rfl, hlt wild le_rfl,
        hlt _ (length_unescape ..)]

/-- `LIKE '%a'`, where a null byte follows. -/
theorem myWildcmp8bit_like_iff_backslash :
    readPattern 92 95 37 [37, 97] = [many, lit 97] ∧
      ∀ str, myWildcmp8bit id (charInt 92) (charInt 95) (charInt 37) 0 str [37, 97] = 0 ↔
        Like 92 95 37 id str [37, 97] :=
  ⟨by decide +kernel,
    (myWildcmp8bit_like_iff (readWildstr_eq (by decide) false)).mpr fun h => by simp at h⟩

end Like

/-- `'aba' LIKE '%a'` if the byte behind the pattern is `%`, and `'xa' LIKE '%éa' ESCAPE 'é'`. -/
theorem myWildcmp8bit_wrong :
    (Like 92 95 37 id [97, 98, 97] [37, 97] ∧
      myWildcmp8bit id (charInt 92) (charInt 95) (charInt 37) 37 [97, 98, 97] [37, 97] = -1) ∧
    Like 233 95 37 id [120, 97] [37, 233, 97] ∧
      myWildcmp8bit id (charInt 233) (charInt 95) (charInt 37) 0 [120, 97] [37, 233, 97] = -1 := by
  refine ⟨⟨?_, by decide +kernel⟩, ?_, by decide +kernel⟩
  · have hread : readPattern 92 95 37 [37, 97] = [many, lit 97] := by decide +kernel
    rw [Like, hread]
    exact ⟨[97], ⟨[97, 98], rfl⟩, 97, [], rfl, rfl, rfl⟩
  · have hread : readPattern 233 95 37 [37, 233, 97] = [many, lit 97] := by decide +kernel
    rw [Like, hread]
    exact ⟨[97], ⟨[120], rfl⟩, 97, [], rfl, rfl, rfl⟩

end MySQL.Strings
