import MySQL.Lib.Bisect
import MySQL.Sql.Partition.Types

/-!
# Partition ids of RANGE and LIST partitioning

A RANGE partitioned table has the sorted array of the upper bounds of its partitions, a LIST
partitioned one the sorted array of the listed values with their partitions.  The id of a row
and the ends of the part of the array that an interval needs are found by different binary
searches in these arrays.
-/

namespace MySQL.Sql.Partition

open Lib List

/-! ## Tables -/

/-- The bounds of `VALUES LESS THAN`, as `check_range_constants` leaves them.  Only the bound of
a last partition with MAXVALUE can be equal to the bound in front of it. -/
structure RangeTable where
  rangeIntArray : List Longlong
  definedMaxValue : Bool
  pos : 0 < rangeIntArray.length
  increasing : ∀ j, j < rangeIntArray.length → ∀ i, i < j →
    (rangeIntArray.getD i 0).toInt < (rangeIntArray.getD j 0).toInt ∨
      (definedMaxValue = true ∧ j + 1 = rangeIntArray.length ∧
        rangeIntArray.getD i 0 = rangeIntArray.getD j 0)
  maxValue : definedMaxValue = true →
    rangeIntArray.getD (rangeIntArray.length - 1) 0 = longlongMax

/-- `LIST_PART_ENTRY`. -/
structure ListPartEntry where
  listValue : Longlong
  partitionId : ℕ

instance : Inhabited ListPartEntry := ⟨⟨0, 0⟩⟩

/-- The listed values, as `check_list_constants` leaves them. -/
structure ListTable where
  listArray : List ListPartEntry
  hasNullValue : Bool
  hasNullPartId : ℕ
  increasing : ∀ j, j < listArray.length → ∀ i, i < j →
    (listArray.getD i default).listValue.toInt < (listArray.getD j default).listValue.toInt

namespace RangeTable

variable (t : RangeTable)

def numParts : ℕ := t.rangeIntArray.length

def rangeAt (i : ℕ) : Longlong := t.rangeIntArray.getD i 0

variable {t} {i j : ℕ}

theorem rangeAt_mono (hij : i ≤ j) (hj : j < t.numParts) :
    (t.rangeAt i).toInt ≤ (t.rangeAt j).toInt := by
  rcases hij.lt_or_eq with hlt | rfl
  · rcases t.increasing j hj i hlt with h | ⟨-, -, h⟩
    · exact h.le
    · exact (congrArg BitVec.toInt h).le
  · exact le_rfl

theorem last_of_rangeAt_le (hij : i < j) (hj : j < t.numParts)
    (h : (t.rangeAt j).toInt ≤ (t.rangeAt i).toInt) : j + 1 = t.numParts := by
  rcases t.increasing j hj i hij with hlt | ⟨-, hlast, -⟩
  · exact absurd hlt h.not_gt
  · exact hlast

end RangeTable

namespace ListTable

variable (t : ListTable)

def numListValues : ℕ := t.listArray.length

def listAt (i : ℕ) : ListPartEntry := t.listArray.getD i default

/-- The place of the entry `i` relative to a value. -/
def place (v : Longlong) (i : ℕ) : Ordering := compare (t.listAt i).listValue.toInt v.toInt

variable {t}

theorem ascending_place (v : Longlong) : Ascending (t.place v) t.numListValues := by
  have hmono : ∀ i j, i ≤ j → j < t.numListValues →
      (t.listAt i).listValue.toInt ≤ (t.listAt j).listValue.toInt := by
    intro i j hij hj
    rcases hij.lt_or_eq with hlt | rfl
    · exact (t.increasing j hj i hlt).le
    · exact le_rfl
  constructor
  · intro i j hij hj h
    exact compare_lt_iff_lt.mpr ((hmono i j hij hj).trans_lt (compare_lt_iff_lt.mp h))
  · intro i j hij hj h
    exact compare_gt_iff_gt.mpr ((compare_gt_iff_gt.mp h).trans_le (hmono i j hij hj))

theorem place_ne_eq (v : Longlong) (i j : ℕ) (hij : i < j) (hj : j < t.numListValues)
    (hi : t.place v i = .eq) : t.place v j ≠ .eq := by
  intro h
  have heq := (compare_eq_iff_eq.mp hi).trans (compare_eq_iff_eq.mp h).symm
  exact absurd heq (t.increasing j hj i hij).ne

end ListTable

/-! ## The constants of the definition -/

/-- The loop of `check_range_constants` behind the first partition; `prev` is
`current_largest`. -/
def rangeIncreasing (definedMaxValue : Bool) (prev : Longlong) : List Longlong → Bool
  | [] => true
  | v :: rest =>
    if v.toInt < prev.toInt ∨
        (prev = v ∧ (v.toInt < longlongMax.toInt ∨ rest ≠ [] ∨ definedMaxValue = false)) then
      false
    else rangeIncreasing definedMaxValue v rest

variable (unsignedFlag definedMaxValue : Bool) (values : List Longlong)

def rangeValues : List Longlong :=
  values.mapIdx fun i v =>
    if i ≠ values.length - 1 ∨ definedMaxValue = false then signFlip unsignedFlag v
    else longlongMax

/-- `check_range_constants`. -/
def checkRangeConstants : Option (List Longlong) :=
  match rangeValues unsignedFlag definedMaxValue values with
  | [] => none
  | v :: rest => if rangeIncreasing definedMaxValue v rest then some (v :: rest) else none

variable {unsignedFlag definedMaxValue} {values l : List Longlong}

theorem rangeIncreasing_cons {prev v : Longlong} {rest : List Longlong}
    (h : rangeIncreasing definedMaxValue prev (v :: rest) = true) :
    (prev.toInt < v.toInt ∨ (definedMaxValue = true ∧ rest = [] ∧ prev = v)) ∧
      rangeIncreasing definedMaxValue v rest = true := by
  rw [rangeIncreasing] at h
  split_ifs at h with hbad
  refine ⟨?_, h⟩
  obtain ⟨hle, hmax⟩ := not_or.mp hbad
  rcases (not_lt.mp hle).lt_or_eq with hlt | heq
  · exact .inl hlt
  · have hpv : prev = v := BitVec.eq_of_toInt_eq heq
    obtain ⟨-, hrest⟩ := not_or.mp fun hor => hmax ⟨hpv, hor⟩
    obtain ⟨hnil, hdef⟩ := not_or.mp hrest
    exact .inr ⟨by simpa using hdef, by simpa using hnil, hpv⟩

theorem rangeIncreasing_spec (prev : Longlong) (l : List Longlong)
    (h : rangeIncreasing definedMaxValue prev l = true) (j : ℕ) (hj : j < (prev :: l).length)
    (i : ℕ) (hij : i < j) :
    ((prev :: l).getD i 0).toInt < ((prev :: l).getD j 0).toInt ∨
      (definedMaxValue = true ∧ j + 1 = (prev :: l).length ∧
        (prev :: l).getD i 0 = (prev :: l).getD j 0) := by
  induction l generalizing prev i j with
  | nil => simp only [length_singleton] at hj; omega
  | cons v rest ih =>
    obtain ⟨hstep, hrest⟩ := rangeIncreasing_cons h
    obtain ⟨j, rfl⟩ : ∃ m, j = m + 1 := ⟨j - 1, by omega⟩
    have hj' : j < (v :: rest).length := by simpa using hj
    cases i with
    | succ i =>
      rcases ih v hrest j hj' i (by omega) with hlt | ⟨hd, hlast, heq⟩
      · exact .inl hlt
      · exact .inr ⟨hd, by simpa using hlast, heq⟩
    | zero =>
      cases j with
      | zero =>
        rcases hstep with hlt | ⟨hd, hnil, heq⟩
        · exact .inl hlt
        · exact .inr ⟨hd, by simp [hnil], heq⟩
      | succ j =>
        -- there is a partition behind the second one, so the first two differ
        have hlt : prev.toInt < v.toInt := by
          rcases hstep with hlt | ⟨-, hnil, -⟩
          · exact hlt
          · simp [hnil] at hj'
        left
        rcases ih v hrest (j + 1) hj' 0 (by omega) with hlt' | ⟨-, -, heq⟩
        · exact hlt.trans hlt'
        · exact hlt.trans_le (congrArg BitVec.toInt heq).le

theorem getD_rangeValues_last (h : values ≠ []) :
    (rangeValues unsignedFlag true values).getD (values.length - 1) 0 = longlongMax := by
  have hpos : values.length - 1 < values.length :=
    Nat.sub_lt (length_pos_iff.mpr h) Nat.one_pos
  simp [rangeValues, List.getD_eq_getElem?_getD, List.getElem?_eq_getElem hpos]

theorem checkRangeConstants_spec
    (h : checkRangeConstants unsignedFlag definedMaxValue values = some l) :
    ∃ t : RangeTable, t.rangeIntArray = l ∧ t.definedMaxValue = definedMaxValue ∧
      l = rangeValues unsignedFlag definedMaxValue values := by
  rw [checkRangeConstants] at h
  split at h
  · cases h
  · rename_i v rest hval
    split_ifs at h with hinc
    obtain rfl := Option.some.inj h
    refine ⟨⟨v :: rest, definedMaxValue, Nat.succ_pos _, rangeIncreasing_spec v rest hinc, ?_⟩,
      rfl, rfl, hval.symm⟩
    rintro rfl
    have hlen : (v :: rest).length = values.length := by
      rw [← hval, rangeValues, length_mapIdx]
    have hne : values ≠ [] := length_pos_iff.mp (hlen ▸ Nat.succ_pos _)
    rw [← hval] at hlen ⊢
    rw [hlen]
    exact getD_rangeValues_last hne

/-- The values of one partition of `VALUES IN`. -/
structure ListPartDef where
  hasNullValue : Bool
  values : List Longlong

/-- The first loop of `check_list_constants`: the partition with NULL, if there is one.  Two of
them are an error. -/
def findNullPart (found : Option ℕ) (i : ℕ) : List ListPartDef → Option (Option ℕ)
  | [] => some found
  | d :: rest =>
    if d.hasNullValue then
      if found.isSome then none else findNullPart (some i) (i + 1) rest
    else findNullPart found (i + 1) rest

def listEntries (unsignedFlag : Bool) (i : ℕ) : List ListPartDef → List ListPartEntry
  | [] => []
  | d :: rest =>
    d.values.map (fun v => ⟨signFlip unsignedFlag v, i⟩) ++ listEntries unsignedFlag (i + 1) rest

/-- The order of `list_part_cmp`. -/
def listPartLe (a b : ListPartEntry) : Bool := a.listValue.toInt ≤ b.listValue.toInt

def listDistinct : List ListPartEntry → Bool
  | a :: b :: rest =>
    if a.listValue = b.listValue then false else listDistinct (b :: rest)
  | _ => true

/-- `check_list_constants`; the sorting is done by `my_qsort`. -/
def checkListConstants (unsignedFlag : Bool) (defs : List ListPartDef) :
    Option (List ListPartEntry × Option ℕ) :=
  match findNullPart none 0 defs with
  | none => none
  | some null =>
    let l := (listEntries unsignedFlag 0 defs).mergeSort listPartLe
    if listDistinct l then some (l, null) else none

theorem pairwise_of_listDistinct (l : List ListPartEntry)
    (hsorted : l.Pairwise fun a b => a.listValue.toInt ≤ b.listValue.toInt)
    (h : listDistinct l = true) : l.Pairwise fun a b => a.listValue.toInt < b.listValue.toInt := by
  induction l with
  | nil => exact List.Pairwise.nil
  | cons a l ih =>
    obtain ⟨ha, hl⟩ := pairwise_cons.mp hsorted
    cases l with
    | nil => exact pairwise_singleton _ a
    | cons b l =>
      rw [listDistinct] at h
      split_ifs at h with hne
      have hstrict := ih hl h
      have hab : a.listValue.toInt < b.listValue.toInt :=
        (ha b mem_cons_self).lt_of_ne fun heq => hne (BitVec.eq_of_toInt_eq heq)
      refine pairwise_cons.mpr ⟨fun c hc => ?_, hstrict⟩
      rcases mem_cons.mp hc with rfl | hc
      · exact hab
      · exact hab.trans ((pairwise_cons.mp hstrict).1 c hc)

variable {defs : List ListPartDef} {found null : Option ℕ}

theorem checkListConstants_spec {l : List ListPartEntry}
    (h : checkListConstants unsignedFlag defs = some (l, null)) :
    ∃ t : ListTable, t.listArray = l ∧ t.hasNullValue = null.isSome ∧
      t.hasNullPartId = null.getD 0 ∧ findNullPart none 0 defs = some null ∧
        l = (listEntries unsignedFlag 0 defs).mergeSort listPartLe := by
  simp only [checkListConstants] at h
  split at h
  · cases h
  · rename_i null' hfind
    split_ifs at h with hdist
    obtain ⟨rfl, rfl⟩ := Prod.mk.inj (Option.some.inj h)
    have hsorted : ((listEntries unsignedFlag 0 defs).mergeSort listPartLe).Pairwise
        fun a b => listPartLe a b = true := by
      apply pairwise_mergeSort
      · intro a b c hab hbc
        exact decide_eq_true ((of_decide_eq_true hab).trans (of_decide_eq_true hbc))
      · intro a b
        rw [Bool.or_eq_true]
        exact (le_total _ _).imp decide_eq_true decide_eq_true
    have hstrict := pairwise_of_listDistinct _ (hsorted.imp of_decide_eq_true) hdist
    refine ⟨⟨_, null'.isSome, null'.getD 0, fun j hj i hij => ?_⟩, rfl, rfl, rfl, hfind, rfl⟩
    rw [getD_eq_getElem _ _ hj, getD_eq_getElem _ _ (hij.trans hj)]
    exact pairwise_iff_getElem.mp hstrict i j _ _ hij

/-! ## RANGE -/

namespace RangeTable

variable (t : RangeTable) (v : Longlong)

/-- The loop of `get_partition_id_range`. -/
def searchAbove : ℕ :=
  bisectFloor (fun i => (t.rangeAt i).toInt ≤ v.toInt) t.numParts 0 (t.numParts - 1)

/-- The loop of `get_partition_id_range_for_endpoint`, which counts the bound itself to the
partition. -/
def searchFrom : ℕ :=
  bisectFloor (fun i => (t.rangeAt i).toInt < v.toInt) t.numParts 0 (t.numParts - 1)

/-- The search for a left endpoint with its adjustment: if the value is not below the bound, the
interval starts with the next partition. -/
def leftEndpoint : ℕ :=
  let loc := t.searchFrom v
  if (t.rangeAt loc).toInt ≤ v.toInt ∧ (loc < t.numParts - 1 ∨ t.definedMaxValue = false) then
    loc + 1
  else loc

/-- The search for a right endpoint: for `<= X` and a partition LESS THAN (X) the next
partition belongs to the interval. -/
def rightEndpoint (incl : Bool) (v : Longlong) : ℕ :=
  let loc := t.searchFrom v
  (if incl ∧ loc < t.numParts - 1 ∧ v = t.rangeAt loc then loc + 1 else loc) + 1

theorem searchAbove_spec :
    t.searchAbove v < t.numParts ∧
      (∀ i, i < t.searchAbove v → (t.rangeAt i).toInt ≤ v.toInt) ∧
        (t.searchAbove v + 1 < t.numParts → v.toInt < (t.rangeAt (t.searchAbove v)).toInt) := by
  obtain ⟨hlt, hbelow, habove⟩ := bisectFloor_spec
    (fun i j hij hj hp => decide_eq_true ((rangeAt_mono hij hj).trans (of_decide_eq_true hp))) t.pos
  exact ⟨hlt, fun i hi => of_decide_eq_true (hbelow i hi),
    fun hl => not_le.mp (of_decide_eq_false (habove hl))⟩

theorem searchFrom_spec :
    t.searchFrom v < t.numParts ∧
      (∀ i, i < t.searchFrom v → (t.rangeAt i).toInt < v.toInt) ∧
        (t.searchFrom v + 1 < t.numParts → v.toInt ≤ (t.rangeAt (t.searchFrom v)).toInt) := by
  obtain ⟨hlt, hbelow, habove⟩ := bisectFloor_spec
    (fun i j hij hj hp => decide_eq_true ((rangeAt_mono hij hj).trans_lt (of_decide_eq_true hp)))
    t.pos
  exact ⟨hlt, fun i hi => of_decide_eq_true (hbelow i hi),
    fun hl => not_lt.mp (of_decide_eq_false (habove hl))⟩

def Holds (p : ℕ) (w : ℤ) : Prop :=
  p < t.numParts ∧ (∀ i, i < p → (t.rangeAt i).toInt ≤ w) ∧
    (w < (t.rangeAt p).toInt ∨ (p + 1 = t.numParts ∧ t.definedMaxValue = true))

variable {t v} {p : ℕ} {w : ℤ} {incl : Bool}

theorem leftEndpoint_le_iff (hp : p < t.numParts) : t.leftEndpoint v ≤ p ↔
    v.toInt < (t.rangeAt p).toInt ∨ (p + 1 = t.numParts ∧ t.definedMaxValue = true) := by
  obtain ⟨hn, hbelow, habove⟩ := t.searchFrom_spec v
  simp only [leftEndpoint]
  split_ifs with hnext
  · -- the partition of the search ends at the value or is not open to the right
    obtain ⟨hrange, hopen⟩ := hnext
    constructor
    · intro hlt
      have hv := habove (by omega)
      rcases t.increasing p hp _ hlt with hmore | ⟨hdef, hlast, -⟩
      · exact .inl (hv.trans_lt hmore)
      · exact .inr ⟨hlast, hdef⟩
    · intro hlast
      by_contra hle
      rcases hlast with hlt | ⟨hlast, hdef⟩
      · have hmono := rangeAt_mono (t := t) (show p ≤ t.searchFrom v by omega) hn
        omega
      · rcases hopen with hopen | hopen
        · omega
        · exact absurd (hdef.symm.trans hopen) Bool.noConfusion
  · constructor
    · intro hle
      rcases not_and_or.mp hnext with hrange | hopen
      · exact .inl ((not_le.mp hrange).trans_le (rangeAt_mono hle hp))
      · rw [not_or, Bool.not_eq_false] at hopen
        exact .inr ⟨by omega, hopen.2⟩
    · intro hlast
      by_contra hlt
      have hrange := hbelow p (not_le.mp hlt)
      rcases hlast with hv | ⟨hlast, -⟩ <;> omega

theorem leftEndpoint_le (hvw : v.toInt ≤ w) (hp : t.Holds p w) : t.leftEndpoint v ≤ p :=
  (leftEndpoint_le_iff hp.1).mpr (hp.2.2.imp_left hvw.trans_lt)

theorem lt_rightEndpoint (hvw : Inside false incl v.toInt w) (hp : t.Holds p w) :
    p < t.rightEndpoint incl v := by
  obtain ⟨hpn, hbelow, -⟩ := hp
  obtain ⟨-, -, habove⟩ := t.searchFrom_spec v
  simp only [rightEndpoint]
  rcases Nat.lt_or_ge (t.searchFrom v) p with hlt | hle
  · -- the bound at the endpoint is not above the value of the row, so it is the endpoint
    have hrange := hbelow _ hlt
    have hv := habove (by omega)
    obtain rfl : incl = true := by
      by_contra hex
      rw [Bool.eq_false_iff.mpr hex] at hvw
      exact absurd (hv.trans hrange) (not_le.mpr hvw)
    have hwv : w ≤ v.toInt := hvw
    have heq : v = t.rangeAt (t.searchFrom v) := BitVec.eq_of_toInt_eq (by omega)
    rw [if_pos ⟨rfl, by omega, heq⟩]
    by_contra hfar
    have hnext := hbelow (t.searchFrom v + 1) (by omega)
    have hlast := last_of_rangeAt_le (Nat.lt_succ_self (t.searchFrom v)) (by omega)
      (hnext.trans (by omega))
    omega
  · split_ifs <;> omega

end RangeTable

section Range

variable {β : Type*} (t : RangeTable) (e : PartExpr β)

/-- `get_partition_id_range`; `none` is `HA_ERR_NO_PARTITION_FOUND`. -/
def getPartitionIdRange (x : WithBot β) : Option ℕ :=
  match partValInt e x with
  | none => none
  | some ⊥ => some 0
  | some (v : Longlong) =>
    let v := signFlip e.unsignedFlag v
    let loc := t.searchAbove v
    if loc = t.numParts - 1 ∧ (t.rangeAt loc).toInt ≤ v.toInt ∧ t.definedMaxValue = false then
      none
    else some loc

/-- `get_partition_id_range_for_endpoint`. -/
def getPartitionIdRangeForEndpoint (left incl : Bool) (c : WithBot β) : ℕ :=
  let p := e.valIntEndpoint c left incl
  if p.nullValue ∧ e.monotonicityInfo.notNull = false then
    if left = false ∧ p.inclEndp then 1 else 0
  else
    let v := signFlip e.unsignedFlag p.value
    if left then t.leftEndpoint (if p.inclEndp then v else v + 1) else t.rightEndpoint p.inclEndp v

variable {t e} {x c : WithBot β} {v : Longlong} {p : ℕ} {incl : Bool}

theorem partValInt_coe (hv : e.valInt x = v) : partValInt e x = some (v : WithBot Longlong) := by
  rw [partValInt, hv]

theorem holds_of_getPartitionIdRange (hv : e.valInt x = v)
    (h : getPartitionIdRange t e x = some p) : t.Holds p (signFlip e.unsignedFlag v).toInt := by
  simp only [getPartitionIdRange, partValInt_coe hv] at h
  obtain ⟨hlt, hbelow, habove⟩ := t.searchAbove_spec (signFlip e.unsignedFlag v)
  split_ifs at h with hnone
  obtain rfl := Option.some.inj h
  refine ⟨hlt, hbelow, ?_⟩
  by_contra hcon
  obtain ⟨hle, hmax⟩ := not_or.mp hcon
  have hlast : t.searchAbove (signFlip e.unsignedFlag v) + 1 = t.numParts := by
    by_contra hin
    exact hle (habove (by omega))
  refine hnone ⟨by omega, not_lt.mp hle, ?_⟩
  exact Bool.eq_false_iff.mpr fun hdef => hmax ⟨hlast, hdef⟩

theorem toInt_succ_le {a b : Longlong} (h : a.toInt < b.toInt) : (a + 1).toInt ≤ b.toInt := by
  have hone : (1 : Longlong).toNat = 1 := rfl
  simp only [BitVec.toInt_eq_toNat_cond, BitVec.toNat_add, hone] at h ⊢
  split_ifs at h ⊢ <;> omega

theorem rangeForEndpoint_le [LT β] [LE β] (hb : e.BoundsAt true incl c)
    (hx : Inside true incl c x) (hv : e.valInt x = v)
    (hp : t.Holds p (signFlip e.unsignedFlag v).toInt) :
    getPartitionIdRangeForEndpoint t e true incl c ≤ p := by
  rw [getPartitionIdRangeForEndpoint]
  by_cases hnull : (e.valIntEndpoint c true incl).nullValue = true ∧
      e.monotonicityInfo.notNull = false
  · rw [if_pos hnull]
    exact Nat.zero_le p
  · rw [if_neg hnull]
    apply RangeTable.leftEndpoint_le _ hp
    have hin := hb.inside hx hv hnull
    cases hincl : (e.valIntEndpoint c true incl).inclEndp with
    | true =>
      rw [hincl] at hin
      exact hin
    | false =>
      rw [hincl] at hin
      exact toInt_succ_le hin

theorem lt_rangeForEndpoint [LT β] [LE β] (hb : e.BoundsAt false incl c)
    (hx : Inside false incl c x) (hv : e.valInt x = v)
    (hp : t.Holds p (signFlip e.unsignedFlag v).toInt) :
    p < getPartitionIdRangeForEndpoint t e false incl c := by
  have hnull := hb.not_left_of_null hx hv
  have hin := hb.inside hx hv hnull
  rw [getPartitionIdRangeForEndpoint, if_neg hnull]
  exact RangeTable.lt_rightEndpoint hin hp

end Range

/-! ## LIST -/

section List

variable {β : Type*} (t : ListTable) (e : PartExpr β)

/-- `get_partition_id_list`. -/
def getPartitionIdList (x : WithBot β) : Option ℕ :=
  match partValInt e x with
  | none => none
  | some ⊥ => if t.hasNullValue then some t.hasNullPartId else none
  | some (v : Longlong) =>
    if t.numListValues = 0 then none
    else
      match bisect (t.place (signFlip e.unsignedFlag v)) t.numListValues 0
          (t.numListValues - 1) with
      | (i, .eq) => some (t.listAt i).partitionId
      | _ => none

/-- `get_list_array_idx_for_endpoint`. -/
def getListArrayIdxForEndpoint (left incl : Bool) (c : WithBot β) : ℕ :=
  let p := e.valIntEndpoint c left incl
  if p.nullValue ∧ e.monotonicityInfo.notNull = false then 0
  else
    bisectIdx (!(left ^^ p.inclEndp))
      (bisect (t.place (signFlip e.unsignedFlag p.value)) t.numListValues 0 (t.numListValues - 1))

variable {t e} {x c : WithBot β} {v : Longlong} {p i : ℕ} {left incl : Bool}

theorem exists_of_getPartitionIdList (hv : e.valInt x = v) (h : getPartitionIdList t e x = some p) :
    ∃ i, i < t.numListValues ∧ t.place (signFlip e.unsignedFlag v) i = .eq ∧
      (t.listAt i).partitionId = p := by
  simp only [getPartitionIdList, partValInt_coe hv] at h
  split_ifs at h with hzero
  split at h
  · rename_i i hb
    obtain ⟨hi, hplace⟩ := (bisect_eq_iff (t.ascending_place _) (t.place_ne_eq _)
      (Nat.pos_of_ne_zero hzero) i).mp hb
    exact ⟨i, hi, hplace, Option.some.inj h⟩
  · cases h

/-- The sub-array of an endpoint starts, or ends, in front of the entry `i` exactly according
to the side of the endpoint on which the value of the entry is. -/
theorem listIdxForEndpoint_le_iff (hval : ¬ ((e.valIntEndpoint c left incl).nullValue = true ∧
      e.monotonicityInfo.notNull = false)) (hi : i < t.numListValues) :
    getListArrayIdxForEndpoint t e left incl c ≤ i ↔
      Inside true (left == (e.valIntEndpoint c left incl).inclEndp)
        (signFlip e.unsignedFlag (e.valIntEndpoint c left incl).value).toInt
        (t.listAt i).listValue.toInt := by
  rw [getListArrayIdxForEndpoint, if_neg hval,
    bisectIdx_le_iff (t.ascending_place _) (t.place_ne_eq _) _ hi]
  cases left <;> cases (e.valIntEndpoint c _ incl).inclEndp <;>
    simp [Inside, ListTable.place, compare_lt_iff_lt, compare_gt_iff_gt]

theorem listIdxForEndpoint_le [LT β] [LE β] (hb : e.BoundsAt true incl c)
    (hx : Inside true incl c x) (hv : e.valInt x = v) (hi : i < t.numListValues)
    (hplace : t.place (signFlip e.unsignedFlag v) i = .eq) :
    getListArrayIdxForEndpoint t e true incl c ≤ i := by
  by_cases hnull : (e.valIntEndpoint c true incl).nullValue = true ∧
      e.monotonicityInfo.notNull = false
  · rw [getListArrayIdxForEndpoint, if_pos hnull]
    exact Nat.zero_le i
  · rw [listIdxForEndpoint_le_iff hnull hi, compare_eq_iff_eq.mp hplace, Bool.true_beq]
    exact hb.inside hx hv hnull

theorem lt_listIdxForEndpoint [LT β] [LE β] (hb : e.BoundsAt false incl c)
    (hx : Inside false incl c x) (hv : e.valInt x = v) (hi : i < t.numListValues)
    (hplace : t.place (signFlip e.unsignedFlag v) i = .eq) :
    i < getListArrayIdxForEndpoint t e false incl c := by
  have hnull := hb.not_left_of_null hx hv
  rw [← not_le, listIdxForEndpoint_le_iff hnull hi, compare_eq_iff_eq.mp hplace, Bool.false_beq,
    not_inside_true]
  exact hb.inside hx hv hnull

end List

/-! ## The partition of a row -/

variable {β : Type*} {e : PartExpr β} {x : WithBot β} {v : Longlong} {p : ℕ}

/-- An unsigned expression. -/
def unsignedItem : PartExpr Longlong :=
  ⟨id, fun _ => false, fun _ _ _ => ⟨0, true, true⟩, true, .nonMonotonic, rfl⟩

theorem getPartitionIdRange_eq_some_iff {t : RangeTable} (hv : e.valInt x = v) :
    getPartitionIdRange t e x = some p ↔ t.Holds p (signFlip e.unsignedFlag v).toInt := by
  refine ⟨holds_of_getPartitionIdRange hv, fun ⟨hp, hbelow, habove⟩ => ?_⟩
  obtain ⟨hlt, hsearch, hfound⟩ := t.searchAbove_spec (signFlip e.unsignedFlag v)
  have hloc : t.searchAbove (signFlip e.unsignedFlag v) = p := by
    by_contra hne
    rcases Nat.lt_or_gt_of_ne hne with hl | hl
    · exact absurd (hbelow _ hl) (not_le.mpr (hfound (by omega)))
    · have hle := hsearch p hl
      omega
  simp only [getPartitionIdRange, partValInt_coe hv, hloc]
  rw [if_neg]
  rintro ⟨-, hle, hmax⟩
  rcases habove with hw | ⟨-, hdef⟩
  · exact absurd hle (not_le.mpr hw)
  · exact absurd hdef (Bool.eq_false_iff.mp hmax)

/-- A row goes to the first partition whose VALUES LESS THAN is above the value of the function,
with or without sign, or to the one with MAXVALUE; otherwise it is refused. -/
theorem range_routing (h : checkRangeConstants e.unsignedFlag definedMaxValue values = some l) :
    ∃ t : RangeTable, t.rangeIntArray = l ∧ t.definedMaxValue = definedMaxValue ∧
      ∀ x (v : Longlong), e.valInt x = v → ∀ p, getPartitionIdRange t e x = some p ↔
        p < values.length ∧
        (∀ i < p, number e.unsignedFlag (values.getD i 0) ≤ number e.unsignedFlag v) ∧
        (number e.unsignedFlag v < number e.unsignedFlag (values.getD p 0) ∨
          p + 1 = values.length ∧ definedMaxValue = true) := by
  obtain ⟨t, rfl, rfl, hl⟩ := checkRangeConstants_spec h
  refine ⟨t, rfl, rfl, fun x v hv p => ?_⟩
  have hat (i : ℕ) (hi : i < values.length)
      (hmax : i ≠ values.length - 1 ∨ t.definedMaxValue = false) :
      (t.rangeAt i).toInt = (signFlip e.unsignedFlag (values.getD i 0)).toInt := by
    rw [RangeTable.rangeAt, hl]
    simp [rangeValues, List.getD_eq_getElem?_getD, List.getElem?_eq_getElem hi, hmax]
  rw [getPartitionIdRange_eq_some_iff hv, RangeTable.Holds, RangeTable.numParts, hl, rangeValues,
    length_mapIdx]
  refine and_congr_right fun hp => and_congr (forall₂_congr fun i hi => ?_) ?_
  · rw [hat i (by omega) (by omega), toInt_signFlip, toInt_signFlip, sub_le_sub_iff_right]
  · by_cases hlast : p + 1 = values.length ∧ t.definedMaxValue = true
    · simp [hlast]
    · rw [or_iff_left hlast, or_iff_left hlast, hat p hp (by grind), toInt_signFlip,
        toInt_signFlip, sub_lt_sub_iff_right]

theorem range_routing_unsigned : ∃ t, getPartitionIdRange t unsignedItem longlongMin = some 1 := by
  have h : checkRangeConstants true false [10, longlongMin + 1] = some [longlongMin + 10, 1] := by
    decide
  obtain ⟨t, -, -, ht⟩ := range_routing (e := unsignedItem) h
  exact ⟨t, (ht _ _ rfl 1).mpr (by decide)⟩

theorem getPartitionIdList_eq_some_iff {t : ListTable} (hv : e.valInt x = v) :
    getPartitionIdList t e x = some p ↔ ⟨signFlip e.unsignedFlag v, p⟩ ∈ t.listArray := by
  constructor
  · intro h
    obtain ⟨i, hi, hplace, rfl⟩ := exists_of_getPartitionIdList hv h
    have hvalue := BitVec.eq_of_toInt_eq (compare_eq_iff_eq.mp hplace)
    rw [← hvalue, ListTable.listAt, getD_eq_getElem _ _ hi]
    exact getElem_mem hi
  · intro h
    obtain ⟨i, hi, heq⟩ := mem_iff_getElem.mp h
    have hat : t.listAt i = ⟨signFlip e.unsignedFlag v, p⟩ := by
      rw [ListTable.listAt, getD_eq_getElem _ _ hi, heq]
    have hpos : 0 < t.numListValues := Nat.zero_lt_of_lt hi
    have hb := (bisect_eq_iff (t.ascending_place _) (t.place_ne_eq _) hpos i).mpr
      ⟨hi, compare_eq_iff_eq.mpr (congrArg (·.listValue.toInt) hat)⟩
    simp only [getPartitionIdList, partValInt_coe hv, hb, if_neg hpos.ne', hat]

theorem mem_listEntries {i : ℕ} {a : ListPartEntry} : a ∈ listEntries unsignedFlag i defs ↔
      ∃ k d, defs[k]? = some d ∧ ∃ v ∈ d.values, ⟨signFlip unsignedFlag v, i + k⟩ = a := by
  induction defs generalizing i with
  | nil => simp [listEntries]
  | cons d defs ih =>
    rw [← Nat.or_exists_add_one, listEntries, mem_append, mem_map, ih]
    simp [Nat.add_assoc, Nat.add_comm 1]

theorem findNullPart_spec {i : ℕ} (h : findNullPart found i defs = some null) :
    null = some p ↔ found = some p ∨ ∃ k d, defs[k]? = some d ∧ d.hasNullValue ∧ i + k = p := by
  induction defs generalizing found i with
  | nil => simp_all [findNullPart]
  | cons d defs ih =>
    rw [findNullPart] at h
    rw [← Nat.or_exists_add_one]
    split_ifs at h with hd hfound <;> rw [ih h]
    · simp_all [Nat.add_assoc, Nat.add_comm 1]
    · simp [hd, Nat.add_assoc, Nat.add_comm 1]

/-- The rows that a partition of `VALUES IN` is for. -/
def ListPartDef.Lists (d : ListPartDef) : WithBot Longlong → Prop
  | ⊥ => d.hasNullValue = true
  | (v : Longlong) => v ∈ d.values

/-- A row goes to the partition that lists the value of the function, NULL included; no two
partitions list the same.  A row that no partition lists is refused. -/
theorem list_routing {l : List ListPartEntry}
    (h : checkListConstants e.unsignedFlag defs = some (l, null)) :
    ∃ t : ListTable, t.listArray = l ∧ t.hasNullValue = null.isSome ∧
      t.hasNullPartId = null.getD 0 ∧ ∀ x, e.isError x = false → ∀ p,
        getPartitionIdList t e x = some p ↔ ∃ d, defs[p]? = some d ∧ d.Lists (e.valInt x) := by
  obtain ⟨t, rfl, hnull, hid, hfind, hl⟩ := checkListConstants_spec h
  refine ⟨t, rfl, hnull, hid, fun x hx p => ?_⟩
  cases hv : e.valInt x with
  | bot =>
    have hspec := findNullPart_spec (p := p) hfind
    simp only [getPartitionIdList, partValInt, hv, hx, hnull, hid, ListPartDef.Lists]
    cases null <;> simp_all
  | coe v =>
    rw [getPartitionIdList_eq_some_iff hv, hl, mem_mergeSort, mem_listEntries]
    cases e.unsignedFlag <;> simp [ListPartDef.Lists, signFlip]

theorem list_routing_null : ∃ t, getPartitionIdList t unsignedItem ⊥ = some 1 ∧
    getPartitionIdList t unsignedItem longlongMin = some 0 := by
  have h : checkListConstants true [⟨false, [longlongMin]⟩, ⟨true, []⟩] =
    some ([⟨0, 0⟩], some 1) := by simp [checkListConstants, findNullPart, listEntries]; decide
  obtain ⟨t, -, -, -, ht⟩ := list_routing (e := unsignedItem) h
  exact ⟨t, (ht _ rfl 1).mpr ⟨_, rfl, rfl⟩, (ht _ rfl 0).mpr ⟨_, rfl, mem_cons_self⟩⟩

end MySQL.Sql.Partition
