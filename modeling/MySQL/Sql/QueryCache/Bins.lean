import MySQL.Lib.Bisect
import MySQL.Lib.System

/-!
# The bins of free memory

Free blocks of the query cache are in bins by their length.  The bins are numbered from the longest
blocks to the shortest ones, in steps: the bins of one step are equally wide, up to a division with
rest.
-/

namespace MySQL.Sql.QueryCache

open Lib List Function

/-! ## The table of the steps -/

/-- `Query_cache_memory_bin_step`. -/
structure BinStep where
  size : ℕ
  idx : ℕ
  increment : ℕ
  deriving DecidableEq

/-- The steps with the number of the bins. -/
structure BinTable where
  steps : List BinStep
  memBinNum : ℕ

/-- `min_allocation_unit`. -/
def minAllocationUnit : ℕ := 512

/-- How many bins the next step has, whose shortest blocks have the given size. -/
def nextBinCount (count size : ℕ) : ℕ := min (6 * (count + 1) / 5) (size / 8)

/-- The loops of `init_cache` over the steps below one of size `prevSize`: their entries, and the
number of all bins. -/
def binSteps (prevSize size count num : ℕ) : List BinStep × ℕ :=
  if minAllocationUnit < size then
    let rest := binSteps size (size / 4) (nextBinCount count (size / 4)) (num + count)
    (⟨size, num + count - 1, (prevSize - size) / count⟩ :: rest.1, rest.2)
  else
    let inc := (prevSize - size) / count
    ([⟨size, num + count - 1, inc⟩], num + count - (minAllocationUnit - size) / inc)
termination_by size
decreasing_by omega

/-- The bins of `init_cache`, if the cache is not too small; the size is the one that is left for
blocks and bins. -/
def initBins (queryCacheSize : ℕ) : Option BinTable :=
  let max := queryCacheSize / 16
  let (steps, num) := binSteps max (max / 4) 2 1
  if max / 4 ≤ minAllocationUnit then none
  else if queryCacheSize < (num + 1) * 16 + (steps.length + 1) * 24 then none
  else some ⟨⟨max, 0, 0⟩ :: steps, num⟩

namespace BinTable

variable (t : BinTable)

def stepSize (i : ℕ) : ℕ := ((t.steps[i]?).map BinStep.size).getD 0

/-- `find_bin`.  A negative number stands for one that wraps around. -/
def findBin (size : ℕ) : ℤ :=
  match bisectFloor (fun i => size < t.stepSize i) t.steps.length 0 t.steps.length with
  | 0 => 0
  | left + 1 =>
    match t.steps[left + 1]? with
    | some s => (s.idx : ℤ) - ((size - s.size) / s.increment : ℕ)
    | none => 0

/-! ## Free blocks -/

structure FreeBlock where
  addr : ℕ
  length : ℕ
  deriving DecidableEq

/-- The lists of free blocks. -/
abbrev Bins := ℕ → List FreeBlock

/-- `insert_into_free_memory_list` and `exclude_from_free_memory_list`. -/
inductive FreeOp where
  | insert (b : FreeBlock)
  | exclude (b : FreeBlock)

def exclude (bins : Bins) (b : FreeBlock) : Bins := fun i => (bins i).erase b

/-- The free blocks of a cache at work; all lengths are aligned. -/
def freeMemory : System Bins FreeOp where
  init bins := bins = fun _ => []
  step bins
    | .insert b =>
      if b.length < minAllocationUnit ∨ ¬8 ∣ b.length then none
      else
        let i := (t.findBin b.length).toNat
        some (update bins i ((bins i).orderedInsert (·.length ≤ ·.length) b))
    | .exclude b => some (exclude bins b)

section Search

variable (l : List FreeBlock) (len : ℕ)

def lengthAt (i : ℕ) : ℕ := ((l[i]?).map FreeBlock.length).getD 0

def nextBlock (i : ℕ) : ℕ := (i + 1) % l.length

def prevBlock (i : ℕ) : ℕ := (i + l.length - 1) % l.length

/-- The loop from the shortest block on. -/
def forward : ℕ → ℕ → ℕ
  | 0, i => i
  | n + 1, i => if lengthAt l i < len then forward n (nextBlock l i) else i

/-- The loop from the longest block back. -/
def backward : ℕ → ℕ → ℕ
  | 0, i => i
  | n + 1, i => if len < lengthAt l i then backward n (prevBlock l i) else i

/-- What is tried in the matching bin: the block, and `first`. -/
def matching : Option FreeBlock × Option FreeBlock :=
  if l = [] then (none, none)
  else if len ≤ lengthAt l (l.length - 1) then
    let first := forward l len 5 0
    if len ≤ lengthAt l first then (l[first]?, l[first]?)
    else
      let block := backward l len 5 (l.length - 1)
      (if lengthAt l block < len then l[nextBlock l block]? else l[block]?, l[first]?)
  else (none, l.getLast?)

end Search

/-- The loop over the bins with longer blocks. -/
def longer (bins : Bins) : ℕ → ℕ
  | 0 => 0
  | i + 1 => if bins (i + 1) = [] then longer bins i else i + 1

/-- The loop over the bins with shorter blocks; bin `mem_bin_num` stops it. -/
def shorter (bins : Bins) (i : ℕ) : ℕ :=
  if i < t.memBinNum ∧ bins i = [] then shorter bins (i + 1) else i
termination_by t.memBinNum - i

/-- The first part of `get_free_block`: blocks that are long enough. -/
def fitting (bins : Bins) (len : ℕ) : Option FreeBlock :=
  let start := (t.findBin len).toNat
  match (matching (bins start) len).1 with
  | some b => some b
  | none => if 0 < start then (bins (longer bins (start - 1))).head? else none

/-- The second part: shorter blocks. -/
def lesser (bins : Bins) (len min : ℕ) : Option FreeBlock :=
  let start := (t.findBin len).toNat
  let first := (matching (bins start) len).2
  if first.any (min < ·.length) then first
  else
    let i := t.shorter bins (start + 1)
    if i < t.memBinNum then (bins i).getLast?.filter (min ≤ ·.length) else none

/-- `get_free_block`. -/
def getFreeBlock (bins : Bins) (len : ℕ) (notLess : Bool) (min : ℕ) : Option FreeBlock × Bins :=
  let block := (t.fitting bins len).or (if notLess then none else t.lesser bins len min)
  (block, (block.map (exclude bins)).getD bins)

/-! ## Where a size is found -/

/-- The bin of a size, in the first step that is not above it. -/
def binOf : List BinStep → ℕ → ℤ
  | [], _ => 0
  | s :: rest, size =>
    if s.size ≤ size then (s.idx : ℤ) - ((size - s.size) / s.increment : ℕ) else binOf rest size

/-- The bins of a step, with the rest of the division, are not more than those it was given. -/
def Even (s s' : BinStep) : Prop :=
  (s.size - 1 - s'.size) / s'.increment ≤ s'.idx - s.idx

instance : DecidableRel Even := fun _ _ => inferInstanceAs (Decidable (_ ≤ _))

/-- The steps from one on: the sizes fall to one that is not above the unit, and the number of the
bins is such that the unit is in the last one. -/
def Falls (num : ℕ) : BinStep → List BinStep → Prop
  | s, [] => s.size ≤ minAllocationUnit ∧
      num = s.idx + 1 - (minAllocationUnit - s.size) / s.increment
  | s, s' :: rest => minAllocationUnit < s.size ∧ s'.size < s.size ∧ s.idx ≤ s'.idx ∧
      Falls num s' rest

variable {t} {s : BinStep} {rest : List BinStep} {num size a b : ℕ}

theorem falls_binSteps (s : BinStep) (count : ℕ) (hs : minAllocationUnit < s.size) :
    Falls (binSteps s.size (s.size / 4) count (s.idx + 1)).2 s
      (binSteps s.size (s.size / 4) count (s.idx + 1)).1 := by
  induction hn : s.size using Nat.strong_induction_on generalizing s count with
  | _ n ih =>
    subst hn
    have hnum : s.idx + 1 + count = s.idx + 1 + count - 1 + 1 := by omega
    rw [binSteps]
    split
    · next hlt =>
      refine ⟨hs, by dsimp only; omega, by dsimp only; omega, ?_⟩
      have hrest := ih (s.size / 4) (by omega) ⟨s.size / 4, s.idx + 1 + count - 1,
        (s.size - s.size / 4) / count⟩ (nextBinCount count (s.size / 4 / 4)) hlt rfl
      rwa [← hnum] at hrest
    · next hge =>
      refine ⟨hs, ?_, ?_, Nat.le_of_not_lt hge, ?_⟩ <;> dsimp only <;> omega

theorem binOf_of_le (h : s.size ≤ size) :
    binOf (s :: rest) size = s.idx - ((size - s.size) / s.increment : ℕ) := if_pos h

theorem binOf_of_lt (h : size < s.size) : binOf (s :: rest) size = binOf rest size :=
  if_neg (Nat.not_le.mpr h)

theorem binOf_le_binOf (ha : s.size ≤ a) (hab : a ≤ b) :
    binOf (s :: rest) b ≤ binOf (s :: rest) a := by
  have hdiv := Nat.div_le_div_right (c := s.increment) (Nat.sub_le_sub_right hab s.size)
  rw [binOf_of_le ha, binOf_of_le (ha.trans hab)]
  omega

section

variable (h : Falls num s rest)

include h

theorem Falls.idx_le_binOf (heven : (s :: rest).IsChain Even)
    (hsize : minAllocationUnit ≤ size) (hlt : size < s.size) : (s.idx : ℤ) ≤ binOf rest size := by
  induction rest generalizing s with
  | nil =>
    have hle := h.1
    omega
  | cons s' rest ih =>
    obtain ⟨-, -, hidx, hrest⟩ := h
    obtain ⟨hstep, heven⟩ := isChain_cons_cons.mp heven
    by_cases hle : s'.size ≤ size
    · have hdiv : (size - s'.size) / s'.increment ≤ (s.size - 1 - s'.size) / s'.increment :=
        Nat.div_le_div_right (by omega)
      unfold Even at hstep
      rw [binOf_of_le hle]
      omega
    · rw [binOf_of_lt (Nat.lt_of_not_le hle)]
      have hge := ih hrest heven (Nat.lt_of_not_le hle)
      omega

theorem Falls.binOf_antitone (heven : (s :: rest).IsChain Even)
    (ha : minAllocationUnit ≤ a) (hab : a ≤ b) : binOf (s :: rest) b ≤ binOf (s :: rest) a := by
  induction rest generalizing s with
  | nil => exact binOf_le_binOf (h.1.trans ha) hab
  | cons s' rest ih =>
    by_cases hsa : s.size ≤ a
    · exact binOf_le_binOf hsa hab
    · have hlt := Nat.lt_of_not_le hsa
      rw [binOf_of_lt hlt]
      by_cases hsb : s.size ≤ b
      · have hge := h.idx_le_binOf heven ha hlt
        rw [binOf_of_le hsb]
        exact (Int.sub_le_self _ (Int.natCast_nonneg _)).trans hge
      · rw [binOf_of_lt (Nat.lt_of_not_le hsb)]
        exact ih h.2.2.2 (isChain_cons_cons.mp heven).2

theorem Falls.binOf_unit (heven : (s :: rest).IsChain Even)
    (hs : minAllocationUnit < s.size) : binOf (s :: rest) minAllocationUnit + 1 = num := by
  induction rest generalizing s with
  | nil => exact absurd h.1 (Nat.not_le.mpr hs)
  | cons s' rest ih =>
    rw [binOf_of_lt hs]
    by_cases hs' : minAllocationUnit < s'.size
    · exact ih h.2.2.2 (isChain_cons_cons.mp heven).2 hs'
    · have hge := h.idx_le_binOf heven le_rfl hs
      rw [binOf_of_le (Nat.le_of_not_lt hs')] at hge ⊢
      cases rest with
      | nil =>
        have hnum := h.2.2.2.2
        omega
      | cons s'' rest => exact absurd h.2.2.2.1 hs'

/-- Where a step is not even, the last size below it is in an earlier bin than the size itself. -/
theorem Falls.exists_of_not_even (heven : ¬ (s :: rest).IsChain Even) :
    ∃ a b, minAllocationUnit ≤ a ∧ a ≤ b ∧ b ≤ s.size ∧
      binOf (s :: rest) a < binOf (s :: rest) b := by
  induction rest generalizing s with
  | nil => exact absurd (isChain_singleton s) heven
  | cons s' rest ih =>
    obtain ⟨hunit, hlt, hidx, hrest⟩ := h
    by_cases hstep : Even s s'
    · have heven' : ¬ (s' :: rest).IsChain Even := fun hchain =>
        heven (isChain_cons_cons.mpr ⟨hstep, hchain⟩)
      obtain ⟨a, b, ha, hab, hb, hbin⟩ := ih hrest heven'
      refine ⟨a, b, ha, hab, by omega, ?_⟩
      rwa [binOf_of_lt (by omega), binOf_of_lt (s := s) (by omega)]
    · refine ⟨s.size - 1, s.size, by omega, by omega, le_rfl, ?_⟩
      rw [binOf_of_lt (by omega), binOf_of_le (by omega), binOf_of_le le_rfl]
      unfold Even at hstep
      rw [Nat.sub_self, Nat.zero_div]
      omega

theorem Falls.size_lt : ∀ s' ∈ rest, s'.size < s.size := by
  induction rest generalizing s with
  | nil => exact fun s' hs' => (not_mem_nil hs').elim
  | cons s' rest ih =>
    refine forall_mem_cons.mpr ⟨h.2.1, fun s'' hs'' => ?_⟩
    exact (ih h.2.2.2 s'' hs'').trans h.2.1

theorem Falls.exists_step (hsize : minAllocationUnit ≤ size) :
    ∃ (k : ℕ) (s' : BinStep), (s :: rest)[k]? = some s' ∧
      (∀ j < k, ∃ x : BinStep, (s :: rest)[j]? = some x ∧ size < x.size) ∧
      (∀ j ≥ k, ∀ x : BinStep, (s :: rest)[j]? = some x → x.size ≤ size) ∧
      binOf (s :: rest) size = s'.idx - ((size - s'.size) / s'.increment : ℕ) := by
  induction rest generalizing s with
  | nil =>
    have hle : s.size ≤ size := h.1.trans hsize
    refine ⟨0, s, rfl, fun j hj => absurd hj (Nat.not_lt_zero j), fun j _ x hx => ?_, if_pos hle⟩
    rwa [← mem_singleton.mp (List.mem_of_getElem? hx)] at hle
  | cons s' rest ih =>
    by_cases hle : s.size ≤ size
    · refine ⟨0, s, rfl, fun j hj => absurd hj (Nat.not_lt_zero j), fun j _ x hx => ?_, if_pos hle⟩
      rcases mem_cons.mp (List.mem_of_getElem? hx) with rfl | hmem
      · exact hle
      · exact (h.size_lt x hmem).le.trans hle
    · obtain ⟨k, y, hy, hbelow, habove, heq⟩ := ih h.2.2.2
      refine ⟨k + 1, y, hy, fun j hj => ?_, fun j hj x hx => ?_, ?_⟩
      · cases j with
        | zero => exact ⟨s, rfl, Nat.lt_of_not_le hle⟩
        | succ j => exact hbelow j (Nat.lt_of_succ_lt_succ hj)
      · cases j with
        | zero => exact absurd hj (Nat.not_succ_le_zero k)
        | succ j => exact habove j (Nat.le_of_succ_le_succ hj) x hx
      · rw [binOf_of_lt (Nat.lt_of_not_le hle), heq]

end

/-! ## Large sizes -/

/-- No more bins than the division with rest of `n` steps makes. -/
def binCap : ℕ → ℕ
  | 0 => 2
  | n + 1 => 6 * (binCap n + 1) / 5

/-- A step may spill into the bins of the one before it, of which there are `c`, and not
further.  The steps with large sizes do not. -/
def Spaced : ℕ → BinStep → List BinStep → Prop
  | _, _, [] => True
  | c, s, s' :: rest => s'.size = s.size / 4 ∧ s.idx ≤ s'.idx ∧
      (s.size - 1 - s'.size) / s'.increment ≤ s'.idx - s.idx + c ∧
      (32768 ≤ s'.size → Even s s') ∧ Spaced (s'.idx - s.idx) s' rest

theorem pred_div_le {c k : ℕ} (hc : c ≤ (k + 1) * (a / c)) : (a - 1) / (a / c) ≤ c + k := by
  rcases Nat.eq_zero_or_pos (a / c) with hzero | hpos
  · simp [hzero]
  · have hmod := Nat.lt_mul_div_succ a (Nat.pos_of_ne_zero fun h => by simp [h] at hpos : 0 < c)
    refine Nat.le_of_lt_succ ((Nat.div_lt_iff_lt_mul hpos).mpr ?_)
    have hsplit : (c + k + 1) * (a / c) = c * (a / c) + (k + 1) * (a / c) := by ring
    have hsucc : c * (a / c + 1) = c * (a / c) + c := by ring
    rw [Nat.succ_eq_add_one, hsplit]
    omega

theorem spaced_binSteps (s : BinStep) {count n c : ℕ} (hpos : 0 < count)
    (hroom : 2 * count ≤ s.size - s.size / 4) (hprev : count ≤ 2 * (c + 1))
    (hcap : count ≤ binCap n) (hsize : s.size * 4 ^ n < 2 ^ 60) :
    Spaced c s (binSteps s.size (s.size / 4) count (s.idx + 1)).1 := by
  induction hn : s.size using Nat.strong_induction_on generalizing s count n c with
  | _ m ih =>
    subst hn
    have hidx : s.idx + 1 + count - 1 - s.idx = count := by omega
    have hpred : s.size - 1 - s.size / 4 = s.size - s.size / 4 - 1 := by omega
    have hinc : 2 ≤ (s.size - s.size / 4) / count := (Nat.le_div_iff_mul_le hpos).mpr hroom
    have hspill : (s.size - 1 - s.size / 4) / ((s.size - s.size / 4) / count) ≤
        s.idx + 1 + count - 1 - s.idx + c := by
      rw [hidx, hpred]
      exact pred_div_le (hprev.trans (by rw [Nat.mul_comm]; exact Nat.mul_le_mul_left _ hinc))
    have heven (hlarge : 32768 ≤ s.size / 4) :
        (s.size - 1 - s.size / 4) / ((s.size - s.size / 4) / count) ≤
          s.idx + 1 + count - 1 - s.idx := by
      have hn : n ≤ 21 := by
        by_contra hn
        have hpow : 4 ^ 22 ≤ 4 ^ n := Nat.pow_le_pow_right (by decide) (by omega)
        have hmul : 131072 * 4 ^ 22 ≤ s.size * 4 ^ n := Nat.mul_le_mul (by omega) hpow
        omega
      have hle : count ≤ 254 := hcap.trans ((by decide : ∀ n ≤ 21, binCap n ≤ 254) n hn)
      have hsquare : count * count ≤ 254 * 254 := Nat.mul_le_mul hle hle
      rw [hidx, hpred]
      refine pred_div_le (k := 0) ?_
      rw [Nat.zero_add, Nat.one_mul]
      exact (Nat.le_div_iff_mul_le hpos).mpr (by omega)
    rw [binSteps]
    split
    · next hlt =>
      refine ⟨rfl, by dsimp only; omega, hspill, heven, ?_⟩
      dsimp only
      rw [hidx]
      have hnext : s.size / 4 * 4 ^ (n + 1) ≤ s.size * 4 ^ n := by
        rw [pow_succ', ← mul_assoc]
        exact Nat.mul_le_mul_right _ (Nat.div_mul_le_self _ _)
      have hunit : 512 < s.size / 4 := hlt
      have hrest := @ih (s.size / 4) (by omega) ⟨s.size / 4, s.idx + 1 + count - 1,
        (s.size - s.size / 4) / count⟩ (nextBinCount count (s.size / 4 / 4)) (n + 1) count
        (by unfold nextBinCount; omega)
        (by unfold nextBinCount; dsimp only; omega) (by unfold nextBinCount; omega)
        (by unfold nextBinCount binCap; omega) (hnext.trans_lt hsize) rfl
      rwa [show s.idx + 1 + count - 1 + 1 = s.idx + 1 + count by omega] at hrest
    · exact ⟨rfl, by dsimp only; omega, hspill, heven, trivial⟩

theorem Spaced.idx_le_binOf {c : ℕ} (h : Spaced c s rest) (hfalls : Falls num s rest)
    (hsize : minAllocationUnit ≤ size) (hlt : size < s.size) :
    (s.idx : ℤ) - c ≤ binOf rest size := by
  induction rest generalizing s c with
  | nil =>
    have hle := hfalls.1
    omega
  | cons s' rest ih =>
    obtain ⟨-, hidx, hspill, -, hrest⟩ := h
    by_cases hle : s'.size ≤ size
    · have hdiv : (size - s'.size) / s'.increment ≤ (s.size - 1 - s'.size) / s'.increment :=
        Nat.div_le_div_right (by omega)
      rw [binOf_of_le hle]
      omega
    · have hge := ih hrest hfalls.2.2.2 (Nat.lt_of_not_le hle)
      rw [binOf_of_lt (Nat.lt_of_not_le hle)]
      omega

theorem Spaced.binOf_le {c : ℕ} (h : Spaced c s rest) (hfalls : Falls num s rest)
    (hs : 131072 ≤ s.size ∨ c = 0) (ha : minAllocationUnit ≤ a) (hab : a ≤ b) (hb : 524288 ≤ b) :
    binOf (s :: rest) b ≤ binOf (s :: rest) a := by
  induction rest generalizing s c with
  | nil => exact binOf_le_binOf (hfalls.1.trans ha) hab
  | cons s' rest ih =>
    by_cases hsb : s.size ≤ b
    · by_cases hsa : s.size ≤ a
      · exact binOf_le_binOf hsa hab
      · have hlt := Nat.lt_of_not_le hsa
        rw [binOf_of_le hsb, binOf_of_lt hlt]
        refine (Int.sub_le_self _ (Int.natCast_nonneg _)).trans ?_
        rcases hs with hs | rfl
        · obtain ⟨hquarter, hidx, -, heven, hrest⟩ := h
          have hstep := heven (by omega)
          exact Spaced.idx_le_binOf (c := 0) ⟨hquarter, hidx, hstep, fun _ => hstep, hrest⟩
            hfalls ha hlt
        · exact h.idx_le_binOf hfalls ha hlt
    · obtain ⟨hquarter, -, -, -, hrest⟩ := h
      rw [binOf_of_lt (by omega), binOf_of_lt (s := s) (by omega)]
      exact ih hrest hfalls.2.2.2 (.inl (by omega))

/-! ## The table of a cache -/

/-- A table that `init_cache` has built. -/
structure Built (t : BinTable) (s : BinStep) (rest : List BinStep) : Prop where
  steps_eq : t.steps = s :: rest
  falls : Falls t.memBinNum s rest
  idx_eq : s.idx = 0
  increment_eq : s.increment = 0
  unit_lt : minAllocationUnit < s.size

theorem built_of_initBins {queryCacheSize : ℕ} (h : initBins queryCacheSize = some t) :
    ∃ s rest, t.Built s rest ∧ (queryCacheSize < 2 ^ 64 → Spaced 0 s rest) := by
  unfold initBins at h
  dsimp only at h
  split at h
  · exact nomatch h
  next hunit =>
  split at h
  · exact nomatch h
  obtain rfl := Option.some.inj h
  have hlt : minAllocationUnit < queryCacheSize / 16 := by omega
  refine ⟨⟨queryCacheSize / 16, 0, 0⟩, _, ⟨rfl, falls_binSteps ⟨_, 0, 0⟩ 2 hlt, rfl, rfl, hlt⟩,
    fun hcache => ?_⟩
  unfold minAllocationUnit at hlt
  exact spaced_binSteps ⟨_, 0, 0⟩ (n := 0) (by decide) (by dsimp only; omega) (by decide) le_rfl
    (by dsimp only; omega)

theorem Built.findBin_eq (h : t.Built s rest) (hsize : minAllocationUnit ≤ size) :
    t.findBin size = binOf (s :: rest) size := by
  obtain ⟨k, s', hget, hbelow, habove, heq⟩ := h.falls.exists_step hsize
  rw [← h.steps_eq] at hget hbelow habove
  have hk : k < t.steps.length := (List.getElem?_eq_some_iff.mp hget).1
  have hcut : IsCut (fun i => decide (size < t.stepSize i) = true) (t.steps.length + 1) k := by
    refine ⟨by omega, fun i hi => ?_, fun i hi _ => ?_⟩
    · obtain ⟨x, hx, hlt⟩ := hbelow i hi
      rw [stepSize, hx]
      exact decide_eq_true hlt
    · rw [decide_eq_true_iff, Nat.not_lt, stepSize]
      cases hx : t.steps[i]? with
      | none => exact Nat.zero_le size
      | some x => exact habove i hi x hx
  have hleft := bisectFloor_eq hcut t.steps.length 0 t.steps.length (by omega) (Nat.zero_le _)
    (by omega) (by omega)
  rw [Nat.min_eq_left (by omega)] at hleft
  unfold findBin
  rw [hleft, heq]
  cases k with
  | zero =>
    rw [h.steps_eq] at hget
    obtain rfl := Option.some.inj hget
    rw [h.idx_eq, h.increment_eq, Nat.div_zero]
    rfl
  | succ k =>
    dsimp only
    rw [hget]

/-! ## Free blocks in their bins -/

/-- The lists are sorted, and every block is in the bin of its length. -/
structure Sorted (t : BinTable) (bins : Bins) : Prop where
  pairwise : ∀ i, (bins i).Pairwise (·.length ≤ ·.length)
  bin_eq : ∀ i, ∀ b ∈ bins i, minAllocationUnit ≤ b.length ∧ (t.findBin b.length).toNat = i

theorem sorted_of_reachable {bins : Bins} (h : t.freeMemory.Reachable bins) : t.Sorted bins := by
  refine h.invariant (fun bins hinit => ?_) fun bins op bins' _ hsorted hstep => ?_
  · subst hinit
    exact ⟨fun _ => .nil, fun _ b hb => (not_mem_nil hb).elim⟩
  · cases op with
    | insert x =>
      simp only [freeMemory] at hstep
      split at hstep
      · exact nomatch hstep
      next hunit =>
      obtain rfl := Option.some.inj hstep
      refine ⟨fun i => ?_, fun i b hb => ?_⟩
      · by_cases hi : i = (t.findBin x.length).toNat
        · rw [hi, update_self]
          exact (hsorted.pairwise _).orderedInsert x _
        · rw [update_of_ne hi]
          exact hsorted.pairwise i
      · by_cases hi : i = (t.findBin x.length).toNat
        · rw [hi, update_self, mem_orderedInsert] at hb
          rcases hb with rfl | hb
          · exact ⟨Nat.le_of_not_lt fun hlt => hunit (.inl hlt), hi.symm⟩
          · exact hi ▸ hsorted.bin_eq _ b hb
        · rw [update_of_ne hi] at hb
          exact hsorted.bin_eq i b hb
    | exclude x =>
      obtain rfl := Option.some.inj hstep
      exact ⟨fun i => (hsorted.pairwise i).sublist erase_sublist,
        fun i b hb => hsorted.bin_eq i b (mem_of_mem_erase hb)⟩

section Matching

variable {l : List FreeBlock} {len i : ℕ}

theorem exists_of_le_lengthAt (hlen : 0 < len) (h : len ≤ lengthAt l i) :
    ∃ b ∈ l, l[i]? = some b ∧ len ≤ b.length := by
  unfold lengthAt at h
  cases hb : l[i]? with
  | none =>
    rw [hb] at h
    exact absurd h (Nat.not_le.mpr hlen)
  | some b =>
    rw [hb] at h
    exact ⟨b, List.mem_of_getElem? hb, rfl, h⟩

theorem nextBlock_prevBlock (hi : i < l.length) : nextBlock l (prevBlock l i) = i := by
  have hadd : i + l.length - 1 + 1 = i + l.length := by omega
  rw [nextBlock, prevBlock, Nat.mod_add_mod, hadd, Nat.add_mod_right, Nat.mod_eq_of_lt hi]

/-- Back from a long enough block, the block or the one behind it is long enough. -/
theorem backward_spec (n : ℕ) (hi : i < l.length)
    (h : len ≤ lengthAt l i ∨ len ≤ lengthAt l (nextBlock l i)) :
    len ≤ lengthAt l (backward l len n i) ∨
      len ≤ lengthAt l (nextBlock l (backward l len n i)) := by
  induction n generalizing i with
  | zero => exact h
  | succ n ih =>
    rw [backward]
    split
    · next hlt =>
      refine ih (Nat.mod_lt _ (by omega)) (.inr ?_)
      rw [nextBlock_prevBlock hi]
      exact hlt.le
    · exact h

theorem matching_spec (hlen : 0 < len) :
    (∃ b ∈ l, (matching l len).1 = some b ∧ len ≤ b.length) ∨
      (matching l len).1 = none ∧ (l.Pairwise (·.length ≤ ·.length) → ∀ b ∈ l, b.length < len) := by
  unfold matching
  split
  · next hnil => exact .inr ⟨rfl, fun _ b hb => (not_mem_nil (hnil ▸ hb)).elim⟩
  next hne =>
  have hpos := length_pos_iff.mpr hne
  split
  · next hlast =>
    left
    dsimp only
    split
    · next hfirst => exact exists_of_le_lengthAt hlen hfirst
    · have hback := backward_spec 5 (Nat.sub_lt hpos one_pos) (.inl hlast)
      split
      · next hlt =>
        exact exists_of_le_lengthAt hlen (hback.resolve_left (Nat.not_le.mpr hlt))
      · next hge => exact exists_of_le_lengthAt hlen (Nat.le_of_not_lt hge)
  · next hlast =>
    refine .inr ⟨rfl, fun hsorted b hb => ?_⟩
    obtain ⟨l', x, rfl⟩ := (eq_nil_or_concat' l).resolve_left hne
    have hx : lengthAt (l' ++ [x]) ((l' ++ [x]).length - 1) = x.length := by simp [lengthAt]
    rw [hx, Nat.not_le] at hlast
    rcases mem_append.mp hb with hb | hb
    · exact ((pairwise_append.mp hsorted).2.2 b hb x (mem_singleton_self x)).trans_lt hlast
    · rwa [mem_singleton.mp hb]

theorem mem_of_matching {b : FreeBlock}
    (h : (matching l len).1 = some b ∨ (matching l len).2 = some b) : b ∈ l := by
  unfold matching at h
  dsimp only at h
  split_ifs at h
  · simp at h
  · exact List.mem_of_getElem? (h.elim id id)
  · exact h.elim List.mem_of_getElem? List.mem_of_getElem?
  · exact h.elim List.mem_of_getElem? List.mem_of_getElem?
  · exact List.mem_of_getLast? (h.resolve_left nofun)

end Matching

theorem longer_spec (bins : Bins) (i : ℕ) :
    (longer bins i ≤ i ∧ bins (longer bins i) ≠ []) ∨
      bins (longer bins i) = [] ∧ ∀ j ≤ i, bins j = [] := by
  induction i with
  | zero =>
    by_cases h : bins 0 = []
    · exact .inr ⟨h, fun j hj => Nat.le_zero.mp hj ▸ h⟩
    · exact .inl ⟨le_rfl, h⟩
  | succ i ih =>
    rw [longer]
    split
    · next hnil =>
      rcases ih with ⟨hle, hne⟩ | ⟨hnil', hall⟩
      · exact .inl ⟨Nat.le_succ_of_le hle, hne⟩
      · refine .inr ⟨hnil', fun j hj => ?_⟩
        rcases Nat.le_succ_iff.mp hj with hj | rfl
        · exact hall j hj
        · exact hnil
    · next hne => exact .inl ⟨le_rfl, hne⟩

/-! ## Best fit -/

/-- What `find_bin` and `get_free_block` are expected to do. -/
structure BestFit (t : BinTable) : Prop where
  bins : ∀ size ≥ minAllocationUnit, 0 ≤ t.findBin size ∧ t.findBin size < t.memBinNum
  antitone : ∀ a b, minAllocationUnit ≤ a → a ≤ b → t.findBin b ≤ t.findBin a
  notLess : ∀ bins, t.freeMemory.Reachable bins → ∀ len ≥ minAllocationUnit,
    ((∃ i, ∃ b ∈ bins i, len ≤ b.length) →
      ∃ b, (t.getFreeBlock bins len true 0).1 = some b ∧ len ≤ b.length) ∧
    ((∀ i, ∀ b ∈ bins i, b.length < len) → (t.getFreeBlock bins len true 0).1 = none)
  less : ∀ bins, t.freeMemory.Reachable bins → ∀ len ≥ minAllocationUnit, ∀ min b,
    (t.getFreeBlock bins len false min).1 = some b → Min.min len min ≤ b.length

/-- A block in a bin before that of a size, which no shorter block gets into, is not shorter. -/
theorem le_length {bins : Bins} {len i : ℕ} (hsorted : t.Sorted bins)
    (hanti : ∀ a, minAllocationUnit ≤ a → a ≤ len → t.findBin len ≤ t.findBin a) {b : FreeBlock}
    (hb : b ∈ bins i) (hi : i < (t.findBin len).toNat) : len ≤ b.length := by
  obtain ⟨hunit, heq⟩ := hsorted.bin_eq i b hb
  by_contra hlt
  have hle := Int.toNat_le_toNat (hanti b.length hunit (Nat.le_of_not_le hlt))
  omega

section Fit

variable (hanti : ∀ a b, minAllocationUnit ≤ a → a ≤ b → t.findBin b ≤ t.findBin a)
  {bins : Bins} (hsorted : t.Sorted bins) {len : ℕ}

include hanti hsorted

theorem bin_le (hlen : minAllocationUnit ≤ len) (i : ℕ) {b : FreeBlock} (hb : b ∈ bins i)
    (hle : len ≤ b.length) : i ≤ (t.findBin len).toNat := by
  obtain ⟨hunit, rfl⟩ := hsorted.bin_eq i b hb
  exact Int.toNat_le_toNat (hanti len b.length hlen hle)

theorem fitting_spec (hlen : minAllocationUnit ≤ len) :
    (∃ i, ∃ b ∈ bins i, t.fitting bins len = some b ∧ len ≤ b.length) ∨
      t.fitting bins len = none ∧ ∀ i, ∀ b ∈ bins i, b.length < len := by
  have hpos : 0 < len := Nat.lt_of_lt_of_le (by decide) hlen
  unfold fitting
  dsimp only
  rcases matching_spec hpos with
    ⟨b, hb, heq, hle⟩ | ⟨heq, hshort⟩
  · rw [heq]
    exact .inl ⟨_, b, hb, rfl, hle⟩
  rw [heq]
  dsimp only
  -- A long enough block is in a bin below.
  have hbelow (i : ℕ) (b : FreeBlock) (hb : b ∈ bins i) (hle : len ≤ b.length) :
      i < (t.findBin len).toNat := by
    refine Nat.lt_of_le_of_ne (bin_le hanti hsorted hlen i hb hle) fun hi => ?_
    exact absurd hle (Nat.not_le.mpr (hshort (hsorted.pairwise _) b (hi ▸ hb)))
  split
  · next hstart =>
    rcases longer_spec bins ((t.findBin len).toNat - 1) with ⟨hle, hne⟩ | ⟨hnil, hall⟩
    · obtain ⟨b, l, hl⟩ := exists_cons_of_ne_nil hne
      have hb : b ∈ bins (longer bins ((t.findBin len).toNat - 1)) := hl ▸ mem_cons_self
      refine .inl ⟨_, b, hb, by rw [hl, List.head?_cons], le_length hsorted (hanti · len) hb ?_⟩
      omega
    · refine .inr ⟨by rw [hnil, List.head?_nil], fun i b hb => ?_⟩
      by_contra hlt
      have hi := hbelow i b hb (Nat.le_of_not_lt hlt)
      rw [hall i (by omega)] at hb
      exact not_mem_nil hb
  · next hstart =>
    refine .inr ⟨rfl, fun i b hb => ?_⟩
    by_contra hlt
    have hi := hbelow i b hb (Nat.le_of_not_lt hlt)
    omega

end Fit

theorem le_length_of_lesser {bins : Bins} {len min : ℕ} {b : FreeBlock}
    (h : t.lesser bins len min = some b) : min ≤ b.length := by
  unfold lesser at h
  dsimp only at h
  split at h
  · next hfirst =>
    rw [h] at hfirst
    exact (of_decide_eq_true hfirst).le
  split at h
  · obtain ⟨-, hle⟩ := Option.filter_eq_some_iff.mp h
    exact of_decide_eq_true hle
  · exact nomatch h

theorem mem_of_getFreeBlock {bins : Bins} {len min : ℕ} {notLess : Bool} {b : FreeBlock}
    (h : (t.getFreeBlock bins len notLess min).1 = some b) : ∃ i, b ∈ bins i := by
  rcases Option.or_eq_some_iff.mp h with h | ⟨-, h⟩
  · unfold fitting at h
    dsimp only at h
    split at h
    · next heq => exact ⟨_, mem_of_matching (.inl (heq.trans h))⟩
    · split at h
      · exact ⟨_, List.mem_of_mem_head? h⟩
      · exact nomatch h
  · cases notLess with
    | true => exact nomatch h
    | false =>
      rw [if_neg Bool.false_ne_true, lesser] at h
      dsimp only at h
      split at h
      · exact ⟨_, mem_of_matching (.inr h)⟩
      · split at h
        · exact ⟨_, List.mem_of_getLast? (Option.filter_eq_some_iff.mp h).1⟩
        · exact nomatch h

/-- A block that is found is as long as it must be, if the steps are even or the length is large. -/
theorem le_length_of_getFreeBlock {queryCacheSize len : ℕ} {bins : Bins} {b : FreeBlock}
    (hcache : queryCacheSize < 2 ^ 64) (ht : initBins queryCacheSize = some t)
    (hlen : t.steps.IsChain Even ∧ minAllocationUnit ≤ len ∨ 524288 ≤ len)
    (hreach : t.freeMemory.Reachable bins) (hb : (t.getFreeBlock bins len true 0).1 = some b) :
    len ≤ b.length := by
  obtain ⟨s, rest, hbuilt, hspaced⟩ := built_of_initBins ht
  have hunit : minAllocationUnit ≤ len := by
    unfold minAllocationUnit at *
    omega
  have hanti (a : ℕ) (ha : minAllocationUnit ≤ a) (hle : a ≤ len) :
      t.findBin len ≤ t.findBin a := by
    rw [hbuilt.findBin_eq ha, hbuilt.findBin_eq hunit]
    rcases hlen with ⟨heven, -⟩ | hlarge
    · exact hbuilt.falls.binOf_antitone (hbuilt.steps_eq ▸ heven) ha hle
    · exact (hspaced hcache).binOf_le hbuilt.falls (.inr rfl) ha hle hlarge
  have hsorted := sorted_of_reachable hreach
  rw [getFreeBlock, if_pos rfl, Option.or_none, fitting] at hb
  dsimp only at hb
  rcases matching_spec (Nat.lt_of_lt_of_le (by decide) hunit) with
    ⟨b', -, heq, hle⟩ | ⟨heq, -⟩
  · rw [heq] at hb
    exact Option.some.inj hb ▸ hle
  · rw [heq] at hb
    dsimp only at hb
    split at hb
    · next hstart =>
      have hmem := List.mem_of_mem_head? hb
      rcases longer_spec bins ((t.findBin len).toNat - 1) with ⟨hle, -⟩ | ⟨hnil, -⟩
      · exact le_length hsorted hanti hmem (by omega)
      · rw [hnil] at hmem
        exact (not_mem_nil hmem).elim
    · exact nomatch hb

/-- The free memory is searched as expected if and only if every step is even. -/
theorem bestFit_iff (queryCacheSize : ℕ) (t : BinTable) (ht : initBins queryCacheSize = some t) :
    t.BestFit ↔ t.steps.IsChain Even := by
  obtain ⟨s, rest, hbuilt, -⟩ := built_of_initBins ht
  rw [hbuilt.steps_eq]
  constructor
  · intro hfit
    by_contra heven
    obtain ⟨a, b, ha, hab, -, hlt⟩ := hbuilt.falls.exists_of_not_even heven
    have hle := hfit.antitone a b ha hab
    rw [hbuilt.findBin_eq ha, hbuilt.findBin_eq (ha.trans hab)] at hle
    omega
  · intro heven
    have hanti (a b : ℕ) (ha : minAllocationUnit ≤ a) (hab : a ≤ b) :
        t.findBin b ≤ t.findBin a := by
      rw [hbuilt.findBin_eq ha, hbuilt.findBin_eq (ha.trans hab)]
      exact hbuilt.falls.binOf_antitone heven ha hab
    refine ⟨fun size hsize => ⟨?_, ?_⟩, hanti, fun bins hreach len hlen => ?_,
      fun bins hreach len hlen min b hb => ?_⟩
    · rw [hbuilt.findBin_eq hsize]
      by_cases hle : s.size ≤ size
      · rw [binOf_of_le hle, hbuilt.idx_eq, hbuilt.increment_eq, Nat.div_zero]
        exact le_rfl
      · have hge := hbuilt.falls.idx_le_binOf heven hsize (Nat.lt_of_not_le hle)
        rw [binOf_of_lt (Nat.lt_of_not_le hle)]
        omega
    · have hlast := hbuilt.falls.binOf_unit heven hbuilt.unit_lt
      have hle := hanti _ size le_rfl hsize
      rw [hbuilt.findBin_eq le_rfl] at hle
      omega
    · rcases fitting_spec hanti (sorted_of_reachable hreach) hlen with
        ⟨i, b, hb, heq, hle⟩ | ⟨heq, hshort⟩
      · refine ⟨fun _ => ⟨b, ?_, hle⟩, fun hall => absurd hle (Nat.not_le.mpr (hall i b hb))⟩
        rw [getFreeBlock, heq]
        rfl
      · refine ⟨fun ⟨i, b, hb, hle⟩ => absurd (hshort i b hb) (Nat.not_lt.mpr hle), fun _ => ?_⟩
        rw [getFreeBlock, heq]
        rfl
    · rcases fitting_spec hanti (sorted_of_reachable hreach) hlen with
        ⟨-, b', -, heq, hle⟩ | ⟨heq, -⟩
      · rw [getFreeBlock, heq] at hb
        obtain rfl := Option.some.inj hb
        exact (min_le_left len min).trans hle
      · rw [getFreeBlock, heq] at hb
        exact (min_le_right len min).trans (le_length_of_lesser hb)

theorem bestFit_one_megabyte : ∃ t, initBins 1048576 = some t ∧ t.BestFit := by
  refine ⟨⟨[⟨65536, 0, 0⟩, ⟨16384, 2, 24576⟩, ⟨4096, 5, 4096⟩, ⟨1024, 9, 768⟩, ⟨256, 15, 128⟩], 14⟩,
    ?_, (bestFit_iff 1048576 _ ?_).mpr (by decide)⟩ <;>
    simp [initBins, binSteps, nextBinCount, minAllocationUnit]

/-- In a cache of this size a block of 1080 bytes is in a later bin than one of 1072 bytes, and is
not found. -/
theorem bestFit_fails : ∃ t, initBins 18005566960 = some t ∧
    t.findBin 1072 = 106 ∧ t.findBin 1080 = 107 ∧
    ∃ bins, t.freeMemory.Reachable bins ∧ bins 107 = [⟨0, 1080⟩] ∧
      (t.getFreeBlock bins 1072 true 0).1 = none := by
  refine ⟨⟨[⟨1125347935, 0, 0⟩, ⟨281336983, 2, 422005476⟩, ⟨70334245, 5, 70334246⟩,
    ⟨17583561, 9, 13187671⟩, ⟨4395890, 15, 2197945⟩, ⟨1098972, 23, 412114⟩, ⟨274743, 33, 82422⟩,
    ⟨68685, 46, 15850⟩, ⟨17171, 62, 3219⟩, ⟨4292, 82, 643⟩, ⟨1073, 107, 128⟩, ⟨268, 138, 25⟩], 130⟩,
    ?_, by decide, by decide, update (fun _ => []) 107 [⟨0, 1080⟩], ?_, rfl, by decide⟩
  · simp [initBins, binSteps, nextBinCount, minAllocationUnit]
  · exact (System.Reachable.start rfl).next (a := .insert ⟨0, 1080⟩) rfl

end BinTable

end MySQL.Sql.QueryCache
