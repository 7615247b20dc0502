import Mathlib

/-!
# Read views

A read view keeps the ids of the transactions that were running when it was opened, in
descending order, and three limits.  `read_view_sees_trx_id` decides visibility from the
limits first and then scans the ids, smallest first.  The array and the limits are kept in
one structure with the facts that make the early exits agree with the scan.
-/

namespace MySQL.Innobase

open List

abbrev TrxId := ℕ

/-- A serialisation number; `⊤` is `IB_ULONGLONG_MAX`, of a transaction without one. -/
abbrev TrxNo := WithTop ℕ

/-- `trx->conc_state` of a transaction in `trx_sys->trx_list`. -/
inductive ConcState where
  | active
  | prepared
  | committedInMemory
  deriving DecidableEq, Repr

abbrev ViewId := ℕ

/-- `trx_t`. -/
structure Trx where
  id : TrxId
  no : TrxNo
  concState : ConcState
  isRecovered : Bool
  /-- The thread has been through `trx_serialisation_number_get`. -/
  inCommit : Bool
  readView : Option ViewId
  globalReadView : Option ViewId

/-- Neither committed nor finished: what `read_view_open_now` hides. -/
def Trx.Running (x : Trx) : Prop :=
  x.concState = .active ∨ x.concState = .prepared

instance (x : Trx) : Decidable x.Running :=
  inferInstanceAs (Decidable (_ ∨ _))

/-- `read_view_t`. -/
structure ReadView where
  lowLimitNo : TrxNo
  upLimitId : TrxId
  lowLimitId : TrxId
  trxIds : List TrxId
  /-- 0 for the views of purge. -/
  creatorTrxId : TrxId
  descending : trxIds.Pairwise (· ≥ ·)
  lt_lowLimitId : ∀ i ∈ trxIds, i < lowLimitId
  upLimitId_eq : upLimitId = trxIds.getLast?.getD lowLimitId
  creator_lt : creatorTrxId ≠ 0 → creatorTrxId < lowLimitId

/-! ## Visibility -/

namespace ReadView

/-- The loop of `read_view_sees_trx_id`, over the ids from the smallest on. -/
def scan (trxId : TrxId) : List TrxId → Bool
  | [] => true
  | viewTrxId :: rest =>
    if trxId ≤ viewTrxId then trxId ≠ viewTrxId else scan trxId rest

/-- `read_view_sees_trx_id`. -/
def sees (v : ReadView) (trxId : TrxId) : Bool :=
  if trxId < v.upLimitId then true
  else if v.lowLimitId ≤ trxId then false
  else scan trxId v.trxIds.reverse

theorem scan_eq_true_iff {t : TrxId} {ids : List TrxId} (h : ids.Pairwise (· ≤ ·)) :
    scan t ids = true ↔ t ∉ ids := by
  induction ids with
  | nil => simp [scan]
  | cons i rest ih =>
    obtain ⟨hle, hrest⟩ := pairwise_cons.mp h
    unfold scan
    split
    next hti =>
      -- The ids that follow are at least `i`, so `t` can only be `i` itself.
      have hout : t ≠ i → t ∉ rest := fun hne hmem => hne (hti.antisymm (hle t hmem))
      simp only [decide_eq_true_eq, mem_cons, not_or]
      exact ⟨fun hne => ⟨hne, hout hne⟩, And.left⟩
    next hti =>
      have hne : t ≠ i := fun heq => hti heq.le
      simp [ih hrest, hne]

variable (v : ReadView)

theorem upLimitId_le {i : TrxId} (hi : i ∈ v.trxIds) : v.upLimitId ≤ i := by
  have hne : v.trxIds ≠ [] := ne_nil_of_mem hi
  have hup : v.upLimitId = v.trxIds.getLast hne := by
    rw [v.upLimitId_eq, List.getLast?_eq_getLast_of_ne_nil hne]
    rfl
  rw [hup]
  exact v.descending.rel_getLast hi

theorem upLimitId_le_lowLimitId : v.upLimitId ≤ v.lowLimitId := by
  cases hids : v.trxIds with
  | nil =>
    have hup := v.upLimitId_eq
    simp only [hids] at hup
    exact hup.le
  | cons i rest =>
    have hi : i ∈ v.trxIds := hids ▸ mem_cons_self
    exact (v.upLimitId_le hi).trans (v.lt_lowLimitId i hi).le

theorem sees_iff (t : TrxId) : v.sees t = true ↔ t < v.lowLimitId ∧ t ∉ v.trxIds := by
  unfold sees
  split
  next hup =>
    have hout : t ∉ v.trxIds := fun hmem => hup.not_ge (v.upLimitId_le hmem)
    exact iff_of_true rfl ⟨hup.trans_le v.upLimitId_le_lowLimitId, hout⟩
  next =>
    split
    next hlow => exact iff_of_false Bool.false_ne_true fun h => h.1.not_ge hlow
    next hlow =>
      have hsorted : v.trxIds.reverse.Pairwise (· ≤ ·) :=
        pairwise_reverse.mpr v.descending
      rw [scan_eq_true_iff hsorted, mem_reverse]
      exact ⟨fun h => ⟨not_le.mp hlow, h⟩, And.right⟩

end ReadView

/-! ## The running transactions -/

/-- What the loop over `trx_sys->trx_list` has written into the view. -/
structure Collected where
  trxIds : List TrxId
  lowLimitNo : TrxNo

/-- One turn of the loop; `hide` is the condition on the transaction. -/
def Collected.visit (hide : Trx → Bool) (c : Collected) (x : Trx) : Collected :=
  if hide x then
    { trxIds := c.trxIds ++ [x.id]
      lowLimitNo := if x.no < c.lowLimitNo then x.no else c.lowLimitNo }
  else c

variable (hide : Trx → Bool) (maxTrxId : TrxId) (trxList : List Trx)

/-- The loop of `read_view_open_now` and of `read_cursor_view_create_for_mysql`. -/
def collect : Collected :=
  trxList.foldl (.visit hide) ⟨[], maxTrxId⟩

theorem foldl_visit_trxIds (c : Collected) :
    (trxList.foldl (.visit hide) c).trxIds =
      c.trxIds ++ (trxList.filter hide).map Trx.id := by
  induction trxList generalizing c with
  | nil => simp
  | cons x rest ih =>
    rw [foldl_cons, ih]
    cases hx : hide x <;> simp [Collected.visit, hx]

theorem le_foldl_visit_lowLimitNo (c : Collected) (n : TrxNo) :
    n ≤ (trxList.foldl (.visit hide) c).lowLimitNo ↔
      n ≤ c.lowLimitNo ∧ ∀ x ∈ trxList, hide x → n ≤ x.no := by
  induction trxList generalizing c with
  | nil => simp
  | cons x rest ih =>
    rw [foldl_cons, ih, forall_mem_cons, ← and_assoc]
    cases hx : hide x with
    | false => simp [Collected.visit, hx]
    | true =>
      have hmin : (c.visit hide x).lowLimitNo = min x.no c.lowLimitNo := by
        simp [Collected.visit, hx, min_def_lt]
      simp [hmin, and_comm]

section Collect

theorem collect_trxIds :
    (collect hide maxTrxId trxList).trxIds = (trxList.filter hide).map Trx.id :=
  foldl_visit_trxIds hide trxList _

theorem le_collect_lowLimitNo (n : TrxNo) :
    n ≤ (collect hide maxTrxId trxList).lowLimitNo ↔
      n ≤ maxTrxId ∧ ∀ x ∈ trxList, hide x → n ≤ x.no :=
  le_foldl_visit_lowLimitNo hide trxList _ n

variable {hide maxTrxId trxList}

theorem mem_collect_trxIds {t : TrxId} :
    t ∈ (collect hide maxTrxId trxList).trxIds ↔ ∃ x ∈ trxList, hide x ∧ x.id = t := by
  simp [collect_trxIds, and_assoc]

theorem collect_descending (h : trxList.Pairwise fun x y => y.id < x.id) :
    (collect hide maxTrxId trxList).trxIds.Pairwise (· ≥ ·) := by
  rw [collect_trxIds]
  exact pairwise_map.mpr ((h.sublist filter_sublist).imp fun hlt => hlt.le)

end Collect

/-! ## Opening a view -/

/-- A view over the list as it is; the two functions that open one differ in which running
transactions they hide. -/
def ReadView.ofCollected (crTrxId : TrxId) (hdesc : trxList.Pairwise fun x y => y.id < x.id)
    (hlt : ∀ x ∈ trxList, x.id < maxTrxId) (hcr : crTrxId ≠ 0 → crTrxId < maxTrxId) :
    ReadView where
  lowLimitNo := (collect hide maxTrxId trxList).lowLimitNo
  upLimitId := (collect hide maxTrxId trxList).trxIds.getLast?.getD maxTrxId
  lowLimitId := maxTrxId
  trxIds := (collect hide maxTrxId trxList).trxIds
  creatorTrxId := crTrxId
  descending := collect_descending hdesc
  lt_lowLimitId i hi := by
    obtain ⟨x, hx, -, rfl⟩ := mem_collect_trxIds.mp hi
    exact hlt x hx
  upLimitId_eq := rfl
  creator_lt := hcr

/-! ## The copy for purge -/

/-- The loop of `read_view_oldest_copy_or_open_new` from position `i` on, with the number of
positions that are left. -/
def copyLoop (ids : List TrxId) (creator : TrxId) :
    (left i : ℕ) → (needsInsert : Bool) → (insertDone : ℕ) → List TrxId
  | 0, _, _, _ => []
  | left + 1, i, needsInsert, insertDone =>
    if needsInsert && (ids.length ≤ i || ids.getD i 0 < creator) then
      creator :: copyLoop ids creator left (i + 1) false 1
    else
      ids.getD (i - insertDone) 0 :: copyLoop ids creator left (i + 1) needsInsert insertDone

def copyTrxIds (old : ReadView) : List TrxId :=
  if old.creatorTrxId ≠ 0 then
    copyLoop old.trxIds old.creatorTrxId (old.trxIds.length + 1) 0 true 0
  else copyLoop old.trxIds old.creatorTrxId old.trxIds.length 0 false 0

section Copy

variable (ids : List TrxId) (creator : TrxId)

theorem copyLoop_false (left i insertDone : ℕ) (hleft : i + left = ids.length + insertDone)
    (hdone : insertDone ≤ i) :
    copyLoop ids creator left i false insertDone = ids.drop (i - insertDone) := by
  induction left generalizing i with
  | zero =>
    have hend : i - insertDone = ids.length := by omega
    simp [copyLoop, hend]
  | succ left ih =>
    have hlt : i - insertDone < ids.length := by omega
    have hnext : i + 1 - insertDone = i - insertDone + 1 := by omega
    have hrest := ih (i + 1) (by omega) (by omega)
    rw [drop_eq_getElem_cons hlt, ← hnext]
    simp [copyLoop, hrest, hlt]

theorem copyLoop_true (left i : ℕ) (hleft : i + left = ids.length + 1) (hi : i ≤ ids.length) :
    copyLoop ids creator left i true 0 = (ids.drop i).orderedInsert (· > ·) creator := by
  induction left generalizing i with
  | zero => omega
  | succ left ih =>
    have hcopied := copyLoop_false ids creator left (i + 1) 1 (by omega) (by omega)
    rcases hi.eq_or_lt with hend | hlt
    · have hnil : left = 0 := by omega
      simp [copyLoop, hend, hnil]
    · rw [drop_eq_getElem_cons hlt, orderedInsert_cons]
      by_cases hsmaller : ids[i] < creator
      · simp [copyLoop, hlt, hsmaller, hcopied]
      · have hrest := ih (i + 1) (by omega) hlt
        simp [copyLoop, hlt, hsmaller, hrest, hlt.not_ge]

variable {ids}

theorem orderedInsert_descending (h : ids.Pairwise (· ≥ ·)) :
    (ids.orderedInsert (· > ·) creator).Pairwise (· ≥ ·) := by
  induction ids with
  | nil => simp
  | cons i rest ih =>
    obtain ⟨hle, hrest⟩ := pairwise_cons.mp h
    rw [orderedInsert_cons]
    split
    next hgt =>
      refine pairwise_cons.mpr ⟨fun j hj => ?_, h⟩
      rcases mem_cons.mp hj with rfl | hj
      · exact hgt.le
      · exact (hle j hj).trans hgt.le
    next hgt =>
      refine pairwise_cons.mpr ⟨fun j hj => ?_, ih hrest⟩
      rcases (mem_orderedInsert _).mp hj with rfl | hj
      · exact not_lt.mp hgt
      · exact hle j hj

end Copy

theorem copyTrxIds_of_creator {old : ReadView} (h : old.creatorTrxId ≠ 0) :
    copyTrxIds old = old.trxIds.orderedInsert (· > ·) old.creatorTrxId := by
  rw [copyTrxIds, if_pos h, copyLoop_true _ _ _ _ (by omega) (Nat.zero_le _), drop_zero]

theorem copyTrxIds_of_no_creator {old : ReadView} (h : old.creatorTrxId = 0) :
    copyTrxIds old = old.trxIds := by
  rw [copyTrxIds, if_neg (not_not.mpr h), copyLoop_false _ _ _ _ _ (by omega) le_rfl,
    drop_zero]

theorem mem_copyTrxIds {old : ReadView} {t : TrxId} :
    t ∈ copyTrxIds old ↔ t ∈ old.trxIds ∨ old.creatorTrxId ≠ 0 ∧ t = old.creatorTrxId := by
  by_cases h : old.creatorTrxId = 0
  · simp [copyTrxIds_of_no_creator h, h]
  · simp [copyTrxIds_of_creator h, h, or_comm]

theorem copyTrxIds_descending (old : ReadView) : (copyTrxIds old).Pairwise (· ≥ ·) := by
  by_cases h : old.creatorTrxId = 0
  · exact copyTrxIds_of_no_creator h ▸ old.descending
  · exact copyTrxIds_of_creator h ▸ orderedInsert_descending _ old.descending

theorem lt_lowLimitId_of_mem_copyTrxIds {old : ReadView} {t : TrxId} (h : t ∈ copyTrxIds old) :
    t < old.lowLimitId := by
  rcases mem_copyTrxIds.mp h with hold | ⟨hne, rfl⟩
  · exact old.lt_lowLimitId t hold
  · exact old.creator_lt hne

/-- The copy that `read_view_oldest_copy_or_open_new` makes for purge, whose own creator
is 0. -/
def ReadView.copyForPurge (old : ReadView) : ReadView where
  lowLimitNo := old.lowLimitNo
  upLimitId :=
    match (copyTrxIds old).getLast? with
    | some last => last
    | none => old.upLimitId
  lowLimitId := old.lowLimitId
  trxIds := copyTrxIds old
  creatorTrxId := 0
  descending := copyTrxIds_descending old
  lt_lowLimitId _ := lt_lowLimitId_of_mem_copyTrxIds
  upLimitId_eq := by
    cases hlast : (copyTrxIds old).getLast? with
    | some last => rfl
    | none =>
      -- Only a view without ids and without a creator has an empty copy.
      have hnil : copyTrxIds old = [] := List.getLast?_eq_none_iff.mp hlast
      have hids : old.trxIds = [] :=
        eq_nil_iff_forall_not_mem.mpr fun t ht =>
          not_mem_nil (hnil ▸ mem_copyTrxIds.mpr (.inl ht))
      simp [old.upLimitId_eq, hids]
  creator_lt h := absurd rfl h

end MySQL.Innobase
