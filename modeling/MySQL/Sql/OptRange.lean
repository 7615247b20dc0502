import MySQL.Lib.Compare
import MySQL.Sql.Partition.Types

/-!
# Ends of intervals

The range optimizer compares the ends of the intervals of a key part with `sel_cmp`
(`opt_range.cc`). They are compared as positions on the line of the values, where NULL comes first,
and where every value has one position just before it and one just behind it.
-/

namespace MySQL.Sql.OptRange

open Lib MySQL.Sql.Partition

/-- An end of an interval, with `min_flag` or `max_flag`: it is not both ends at once. -/
structure RangeEnd (β : Type*) where
  null : Bool
  value : β
  flag : RangeFlags
  range : ¬ (flag.noMinRange ∧ flag.noMaxRange)
  near : ¬ (flag.nearMin ∧ flag.nearMax)

/-- A field, with the order of the values that `key_cmp` compares. -/
structure KeyPart (β V : Type*) [LinearOrder V] where
  realMaybeNull : Bool
  keyCmp : β → β → ℤ
  val : β → V
  keyCmp_lt : ∀ x y, keyCmp x y < 0 ↔ val x < val y
  keyCmp_gt : ∀ x y, 0 < keyCmp x y ↔ val y < val x

/-- What `sel_cmp` does at its label `end`. -/
def selCmpEnd (a b : RangeFlags) : ℤ :=
  if a.nearMin || a.nearMax then
    if a.nearMin = b.nearMin ∧ a.nearMax = b.nearMax then 0
    else if !(b.nearMin || b.nearMax) then if a.nearMin then 2 else -2
    else if a.nearMin then 1 else -1
  else if b.nearMin || b.nearMax then if b.nearMin then -2 else 2
  else 0

variable {β V : Type*} [LinearOrder V] (field : KeyPart β V) (a b : RangeEnd β)

def selCmp : ℤ :=
  if a.flag.noMinRange || a.flag.noMaxRange then
    if a.flag.noMinRange = b.flag.noMinRange ∧ a.flag.noMaxRange = b.flag.noMaxRange then 0
    else if a.flag.noMinRange then -1 else 1
  else if b.flag.noMinRange || b.flag.noMaxRange then if b.flag.noMinRange then 1 else -1
  else if field.realMaybeNull && a.null != b.null then if a.null then -1 else 1
  else if field.realMaybeNull && a.null then selCmpEnd a.flag b.flag
  else
    let cmp := field.keyCmp a.value b.value
    if cmp ≠ 0 then if cmp < 0 then -1 else 1 else selCmpEnd a.flag b.flag

/-! ### Positions -/

/-- Which of the infinities the end is, if it is one. -/
def infinity (f : RangeFlags) : ℤ := if f.noMinRange then -1 else if f.noMaxRange then 1 else 0

/-- An open lower end is just behind its value, and an open upper end just before it. -/
def side (f : RangeFlags) : ℤ := if f.nearMin then 1 else if f.nearMax then -1 else 0

namespace RangeEnd

def val : WithBot V := if field.realMaybeNull && a.null then ⊥ else field.val a.value

def cut : ℤ ×ₗ WithBot V ×ₗ ℤ :=
  toLex (infinity a.flag,
    toLex (if infinity a.flag = 0 then (a.val field, side a.flag) else (⊥, 0)))

/-- The ends are the same value, and one of the two is open. -/
def Joined : Prop :=
  infinity a.flag = 0 ∧ infinity b.flag = 0 ∧ a.val field = b.val field ∧
    (side a.flag = 0 ↔ side b.flag ≠ 0)

end RangeEnd

section

variable {α α' : Type*} [LinearOrder α] [LinearOrder α']

def sgn (x y : α) : ℤ := if x < y then -1 else if y < x then 1 else 0

theorem sgn_toLex (x y : α) (x' y' : α') :
    sgn (toLex (x, x')) (toLex (y, y')) = if x = y then sgn x' y' else sgn x y := by
  simp only [sgn, Prod.Lex.toLex_lt_toLex]
  grind

end

theorem selCmpEnd_eq : selCmpEnd a.flag b.flag =
    sgn (side a.flag) (side b.flag) * if (side a.flag = 0 ↔ side b.flag ≠ 0) then 2 else 1 := by
  have ha := a.near
  have hb := b.near
  unfold selCmpEnd side sgn
  generalize a.flag.nearMin = aMin, a.flag.nearMax = aMax, b.flag.nearMin = bMin,
    b.flag.nearMax = bMax at *
  decide +revert

theorem selCmp_of_infinity (h : infinity a.flag ≠ 0 ∨ infinity b.flag ≠ 0) :
    selCmp field a b = sgn (infinity a.flag) (infinity b.flag) := by
  have ha := a.range
  have hb := b.range
  unfold selCmp
  generalize selCmpEnd a.flag b.flag = y
  revert h
  unfold infinity sgn
  generalize a.flag.noMinRange = aMin, a.flag.noMaxRange = aMax, b.flag.noMinRange = bMin,
    b.flag.noMaxRange = bMax at *
  cases aMin <;> cases aMax <;> cases bMin <;> cases bMax <;> simp_all

theorem selCmp_of_val (ha : infinity a.flag = 0) (hb : infinity b.flag = 0) :
    selCmp field a b =
      if a.val field = b.val field then selCmpEnd a.flag b.flag
      else sgn (a.val field) (b.val field) := by
  have hfinite {e : RangeEnd β} (he : infinity e.flag = 0) :
      (e.flag.noMinRange || e.flag.noMaxRange) = false := by
    unfold infinity at he
    grind
  have hlt := field.keyCmp_lt a.value b.value
  have hgt := field.keyCmp_gt a.value b.value
  unfold selCmp RangeEnd.val sgn
  simp only [hfinite ha, hfinite hb]
  cases field.realMaybeNull <;> cases a.null <;> cases b.null <;> simp <;> grind

theorem selCmp_eq : selCmp field a b = sgn (a.cut field) (b.cut field) ∧ ¬ a.Joined field b ∨
    selCmp field a b = sgn (a.cut field) (b.cut field) * 2 ∧ a.Joined field b := by
  simp only [RangeEnd.cut, RangeEnd.Joined, sgn_toLex]
  by_cases hinf : infinity a.flag = 0 ∧ infinity b.flag = 0
  · obtain ⟨ha, hb⟩ := hinf
    rw [selCmp_of_val field a b ha hb, selCmpEnd_eq]
    simp only [ha, hb, if_true, sgn_toLex]
    grind
  · refine .inl ⟨?_, fun h => hinf ⟨h.1, h.2.1⟩⟩
    rw [selCmp_of_infinity field a b (by tauto)]
    -- two ends at the same infinity stand at the same position
    split_ifs with heq
    all_goals simp_all [sgn]

theorem selCmp_neg : selCmp field a b < 0 ↔ a.cut field < b.cut field := by
  rcases selCmp_eq field a b with ⟨heq, -⟩ | ⟨heq, -⟩ <;> rw [heq, sgn] <;> grind

theorem selCmp_pos : 0 < selCmp field a b ↔ b.cut field < a.cut field := by
  rcases selCmp_eq field a b with ⟨heq, -⟩ | ⟨heq, -⟩ <;> rw [heq, sgn] <;> grind

theorem selCmp_le : selCmp field a b ≤ 0 ↔ a.cut field ≤ b.cut field := by
  rw [← not_lt, selCmp_pos, not_lt]

theorem selCmp_two : selCmp field a b = 2 ∨ selCmp field a b = -2 ↔ a.Joined field b := by
  rcases selCmp_eq field a b with ⟨heq, hj⟩ | ⟨heq, hj⟩
  · rw [heq, sgn]
    grind
  · have hne : a.cut field ≠ b.cut field := fun h => by
      obtain ⟨ha, hb, -, hside⟩ := hj
      simp only [RangeEnd.cut, ha, hb] at h
      simp_all
    rw [heq, sgn]
    grind

end MySQL.Sql.OptRange
