import MySQL.Sql.Partition.Walking

/-!
# What a walk returns

A walk over the values of an interval returns the partitions of all of them.  The walk over
the subpartitions stores each value as a signed one and ends at the first value without a
subpartition.
-/

namespace MySQL.Sql.Partition

open Lib IntField

namespace FieldIter

variable {it : FieldIter} {n : ℕ}

/-- The value that is stored in `k` calls from now. -/
def value (it : FieldIter) (k : ℕ) : Longlong := it.cur + BitVec.ofNat 64 k

@[simp] theorem value_zero : it.value 0 = it.cur := BitVec.add_zero _

theorem value_advance (k : ℕ) : it.advance.value k = it.value (k + 1) := by
  simp only [value, advance, BitVec.ofNat_add]
  rw [BitVec.add_assoc, BitVec.add_comm 1]
  rfl

theorem rest_eq_zero : it.rest = 0 ↔ it.cur = it.stop := by
  rw [rest]
  bv_omega

theorem rest_advance (h : it.rest = n + 1) : it.advance.rest = n := by
  simp only [rest, advance] at h ⊢
  bv_omega

theorem cur_ne_stop (h : it.rest = n + 1) : it.cur ≠ it.stop := by
  intro hcur
  rw [rest_eq_zero.mpr hcur] at h
  exact absurd h.symm n.succ_ne_zero

end FieldIter

namespace WalkInfo

variable {info : WalkInfo} {s : SubpartInfo} {y : WithBot ℤ} {it : FieldIter} {n p q : ℕ}

/-! ## Partitions -/

def partAt (info : WalkInfo) (v : Longlong) : Option ℕ :=
  info.getPartPartitionId (info.field.store v info.field.unsignedFlag : ℤ)

theorem getPartitionId_of_none {x : WithBot ℤ} (h : info.getPartPartitionId x = none) :
    info.getPartitionId x y = none := by
  rw [getPartitionId]
  cases info.sub with
  | none => exact h
  | some s => simp only [h]

theorem walk_of_some (h : it.rest = n + 1) (hp : info.partAt it.cur = some q) :
    info.getNextPartitionViaWalking y it = (some q, it.advance) := by
  rw [partAt] at hp
  rw [getNextPartitionViaWalking, h, nextPart, if_neg (it.cur_ne_stop h)]
  cases hs : info.sub with
  | some s => simp only [Option.isSome_some, if_true, hp]
  | none =>
    have hid : info.getPartitionId (info.field.store it.cur info.field.unsignedFlag : ℤ) y =
        some q := by rw [getPartitionId, hs]; exact hp
    simp only [Option.isSome_none, Bool.false_eq_true, if_false, hid]

theorem walk_of_none (h : it.rest = n + 1) (hp : info.partAt it.cur = none) :
    info.getNextPartitionViaWalking y it = info.getNextPartitionViaWalking y it.advance := by
  have hid : info.getPartitionId (info.field.store it.cur info.field.unsignedFlag : ℤ) y = none :=
    getPartitionId_of_none hp
  rw [partAt] at hp
  rw [getNextPartitionViaWalking, h, nextPart, if_neg (it.cur_ne_stop h),
    getNextPartitionViaWalking, it.rest_advance h]
  simp only [hp, ite_self, hid]

theorem yields_parts (it : FieldIter) :
    Yields (info.getNextPartitionViaWalking y) it p ↔
      ∃ k, k < it.rest ∧ info.partAt (it.value k) = some p := by
  induction hn : it.rest generalizing it with
  | zero =>
    have hend : info.getNextPartitionViaWalking y it = (none, it.reset) := by
      rw [getNextPartitionViaWalking, hn, nextPart]
    simp [not_yields hend]
  | succ n ih =>
    have htail := ih it.advance (it.rest_advance hn)
    simp only [FieldIter.value_advance] at htail
    rw [Nat.exists_lt_succ_left, FieldIter.value_zero, ← htail]
    cases hp : info.partAt it.cur with
    | none => rw [yields_congr (walk_of_none hn hp), or_iff_right (by simp)]
    | some q => rw [yields_iff (walk_of_some hn hp), Option.some_inj, eq_comm]

/-! ## Subpartitions -/

def subpartAt (info : WalkInfo) (v : Longlong) : Option ℕ :=
  info.getSubpartitionId ((info.walkField true).store v false : ℤ)

theorem walkSub_eq (hs : info.sub = some s) (h : it.rest = n + 1) :
    info.getNextSubpartitionViaWalking it = (info.subpartAt it.cur, it.advance) := by
  simp only [getNextSubpartitionViaWalking, hs, if_neg (it.cur_ne_stop h), subpartAt, walkField,
    if_true, Option.map_some, Option.getD_some]

theorem yields_subparts (hs : info.sub = some s) (it : FieldIter) :
    Yields info.getNextSubpartitionViaWalking it p ↔
      ∃ k, k < it.rest ∧ (∀ j, j < k → info.subpartAt (it.value j) ≠ none) ∧
        info.subpartAt (it.value k) = some p := by
  induction hn : it.rest generalizing it with
  | zero =>
    have hend : info.getNextSubpartitionViaWalking it = (none, it.reset) := by
      simp only [getNextSubpartitionViaWalking, hs, if_pos (it.rest_eq_zero.mp hn)]
    simp [not_yields hend]
  | succ n ih =>
    have hnext := walkSub_eq hs hn
    rw [Nat.exists_lt_succ_left]
    cases hp : info.subpartAt it.cur with
    | none =>
      rw [hp] at hnext
      refine iff_of_false (not_yields hnext) ?_
      rintro (⟨-, h⟩ | ⟨k, -, h, -⟩)
      · rw [FieldIter.value_zero, hp] at h
        exact absurd h (Option.some_ne_none p).symm
      · exact h 0 k.succ_pos (by rw [FieldIter.value_zero, hp])
    | some q =>
      rw [hp] at hnext
      rw [yields_iff hnext, ih it.advance (it.rest_advance hn)]
      refine or_congr (by simp [hp, eq_comm]) (exists_congr fun k => ?_)
      simp only [FieldIter.value_advance, Nat.forall_lt_succ_left, FieldIter.value_zero, hp,
        ne_eq, reduceCtorEq, not_false_eq_true, true_and]

/-! ## The values of an interval -/

/-- The iterator goes through the numbers from `lo` up to `hi`. -/
structure Ranges (it : FieldIter) (lo hi : ℤ) : Prop where
  value_eq : ∀ k : ℕ, it.value k = valInt (lo + k)
  rest_eq : (it.rest : ℤ) = hi - lo

theorem valInt_add (v w : ℤ) : valInt v + valInt w = valInt (v + w) :=
  (BitVec.ofInt_add v w).symm

theorem valInt_sub (v w : ℤ) : valInt v - valInt w = valInt (v - w) := by
  rw [BitVec.sub_eq_iff_eq_add, valInt_add, sub_add_cancel]

theorem ranges_of_le {lo hi : ℤ} (hle : lo ≤ hi) (hlt : hi - lo < 2 ^ 64) :
    Ranges ⟨valInt lo, valInt lo, valInt hi⟩ lo hi where
  value_eq k := by
    rw [FieldIter.value, ← valInt_add]
    exact congrArg _ (BitVec.ofInt_natCast 64 k).symm
  rest_eq := by
    rw [FieldIter.rest, valInt_sub]
    exact toNat_ofInt_of_nonneg (by omega) hlt

theorem Ranges.exists_iff {lo hi : ℤ} (h : Ranges it lo hi) {P : ℤ → Prop} :
    (∃ k : ℕ, k < it.rest ∧ P (lo + k)) ↔ ∃ v, lo ≤ v ∧ v < hi ∧ P v := by
  have hrest := h.rest_eq
  constructor
  · rintro ⟨k, hk, hP⟩
    exact ⟨lo + k, by omega, by omega, hP⟩
  · rintro ⟨v, hle, hlt, hP⟩
    obtain ⟨k, hk⟩ := Int.eq_ofNat_of_zero_le (sub_nonneg.mpr hle)
    have hv : lo + k = v := by omega
    exact ⟨k, by omega, hv ▸ hP⟩

/-- The two ends of an interval that is walked. -/
structure Ends (field : IntField) (iv : Interval) (a b : ℤ) : Prop where
  minOf_eq : field.keyField.minOf iv = a
  maxOf_eq : field.keyField.maxOf iv = b
  noMin : iv.flags.noMinRange = false
  noMax : iv.flags.noMaxRange = false
  inRange_min : field.InRange a
  inRange_max : field.InRange b

def lowEnd (iv : Interval) (a : ℤ) : ℤ := a + if iv.flags.nearMin then 1 else 0

def highEnd (iv : Interval) (b : ℤ) : ℤ := b + if iv.flags.nearMax then 0 else 1

namespace Ends

variable {field : IntField} {iv : Interval} {a b v : ℤ}

theorem contains_iff (h : Ends field iv a b) :
    field.keyField.Contains iv v ↔ lowEnd iv a ≤ v ∧ v < highEnd iv b := by
  rw [KeyField.Contains, h.minOf_eq, h.maxOf_eq, lowEnd, highEnd]
  simp only [h.noMin, h.noMax, forall_const]
  apply and_congr
  · cases iv.flags.nearMin <;> simp [Inside]
  · cases iv.flags.nearMax <;> simp [Inside]

theorem not_contains_bot (h : Ends field iv a b) : ¬ field.keyField.Contains iv ⊥ := by
  rintro ⟨hmin, -⟩
  have hin := hmin h.noMin
  rw [h.minOf_eq] at hin
  cases hn : iv.flags.nearMin with
  | false => exact WithBot.not_coe_le_bot a (by rw [hn] at hin; exact hin)
  | true => exact WithBot.not_lt_bot (a : WithBot ℤ) (by rw [hn] at hin; exact hin)

theorem inRange (h : Ends field iv a b) (hv : field.keyField.Contains iv v) : field.InRange v := by
  have hc := h.contains_iff.mp hv
  have ha := h.inRange_min
  have hb := h.inRange_max
  have hlow : a ≤ lowEnd iv a := by rw [lowEnd]; split_ifs <;> omega
  have hhigh : highEnd iv b ≤ b + 1 := by rw [highEnd]; split_ifs <;> omega
  rw [IntField.InRange] at ha hb ⊢
  split_ifs at ha hb ⊢ <;> omega

theorem ranges (h : Ends field iv a b) (hne : valInt b - valInt a ≠ -1)
    (hv : field.keyField.Contains iv v) :
    Ranges ⟨valInt (lowEnd iv a), valInt (lowEnd iv a),
      valInt (highEnd iv b)⟩ (lowEnd iv a) (highEnd iv b) := by
  have hc := h.contains_iff.mp hv
  have hlow : a ≤ lowEnd iv a := by rw [lowEnd]; split_ifs <;> omega
  have hhigh : highEnd iv b ≤ b + 1 := by rw [highEnd]; split_ifs <;> omega
  have hdiff : b - a ≠ 2 ^ 64 - 1 := by
    intro hd
    rw [valInt_sub, hd] at hne
    exact hne (by decide)
  have hpow : (2 : ℤ) ^ (8 * field.type.bytes) ≤ 2 ^ 64 :=
    pow_le_pow_right₀ (by decide) (by cases field.type <;> decide)
  have hhalf : (2 : ℤ) ^ (8 * field.type.bytes - 1) ≤ 2 ^ 63 :=
    pow_le_pow_right₀ (by decide) (by cases field.type <;> decide)
  have hba : b - a ≤ 2 ^ 64 - 1 := by
    have ha := h.inRange_min
    have hb := h.inRange_max
    rw [IntField.InRange] at ha hb
    split_ifs at ha hb <;> omega
  exact ranges_of_le (by omega) (by omega)

end Ends

/-! ## The iterator that is returned -/

variable {isSubpart : Bool} {iv : Interval} {wit : WalkIter}

theorem storeKeyImage_eq_bot {β : Type*} {field : KeyField β} {ptr : List UInt8}
    (hnull : field.realMaybeNull = true) (hptr : ptr.headD 0 ≠ 0) :
    field.storeKeyImage ptr = ⊥ := by
  rw [KeyField.storeKeyImage, if_pos hnull, if_pos hptr]

theorem storeKeyImage_inRange {field : IntField} {ptr : List UInt8}
    (h : ¬ (field.realMaybeNull = true ∧ ptr.headD 0 ≠ 0)) :
    ∃ v : ℤ, field.keyField.storeKeyImage ptr = v ∧ field.InRange v := by
  rw [KeyField.storeKeyImage]
  split_ifs with hnull hptr
  · exact absurd ⟨hnull, hptr⟩ h
  · exact ⟨_, rfl, field.inRange_setKeyImage _⟩
  · exact ⟨_, rfl, field.inRange_setKeyImage _⟩

theorem exists_ends {field : IntField} (h : ¬ ((field.realMaybeNull ∧
      ((iv.flags.noMinRange = false ∧ (iv.minValue.getD []).headD 0 ≠ 0) ∨
        (iv.flags.noMaxRange = false ∧ (iv.maxValue.getD []).headD 0 ≠ 0))) ∨
      iv.flags.noMinRange ∨ iv.flags.noMaxRange)) : ∃ a b, Ends field iv a b := by
  have hnoMin : iv.flags.noMinRange = false :=
    Bool.eq_false_iff.mpr fun hf => h (.inr (.inl hf))
  have hnoMax : iv.flags.noMaxRange = false :=
    Bool.eq_false_iff.mpr fun hf => h (.inr (.inr hf))
  obtain ⟨a, ha, hra⟩ := storeKeyImage_inRange fun hm : field.realMaybeNull = true ∧ _ =>
    h (.inl ⟨hm.1, .inl ⟨hnoMin, hm.2⟩⟩)
  obtain ⟨b, hb, hrb⟩ := storeKeyImage_inRange fun hm : field.realMaybeNull = true ∧ _ =>
    h (.inl ⟨hm.1, .inr ⟨hnoMax, hm.2⟩⟩)
  exact ⟨a, b, ha, hb, hnoMin, hnoMax, hra, hrb⟩

theorem valInt_lowEnd (a : ℤ) :
    valInt a + (if iv.flags.nearMin then 1 else 0) = valInt (lowEnd iv a) := by
  rw [lowEnd, ← valInt_add]
  split_ifs <;> rfl

theorem valInt_highEnd (b : ℤ) :
    valInt b + (if iv.flags.nearMax then 0 else 1) = valInt (highEnd iv b) := by
  rw [highEnd, ← valInt_add]
  split_ifs <;> rfl

def walkOf (isSubpart : Bool) (it : FieldIter) : WalkIter :=
  if isSubpart then .subparts it else .parts it

theorem walking_cases (h : info.getPartIterForIntervalViaWalking isSubpart iv = .iterator wit) :
    (∃ q, info.walkId isSubpart ⊥ = some q ∧ wit = .single ⟨q, q, q + 1, false, false⟩ ∧
      (info.walkField isSubpart).keyField.maxOf iv = ⊥ ∧ iv.flags.noMaxRange = false) ∨
    ∃ a b, Ends (info.walkField isSubpart) iv a b ∧
      valInt b - valInt a ≠ -1 ∧
      wit = walkOf isSubpart ⟨valInt (lowEnd iv a), valInt (lowEnd iv a),
        valInt (highEnd iv b)⟩ := by
  simp only [getPartIterForIntervalViaWalking] at h
  by_cases hnull : (info.walkField isSubpart).realMaybeNull = true ∧
      ¬ (iv.flags.noMinRange = true ∨ iv.flags.noMaxRange = true) ∧
      (iv.minValue.getD []).headD 0 ≠ 0 ∧ (iv.maxValue.getD []).headD 0 ≠ 0
  · left
    rw [if_pos hnull] at h
    obtain ⟨hmaybe, hflags, -, hmax⟩ := hnull
    cases hq : info.walkId isSubpart ⊥ with
    | none => rw [hq] at h; cases h
    | some q =>
      rw [hq] at h
      have hnoMax : iv.flags.noMaxRange = false :=
        Bool.eq_false_iff.mpr fun hf => hflags (.inr hf)
      exact ⟨q, rfl, (Pruning.iterator.inj h).symm, storeKeyImage_eq_bot hmaybe hmax, hnoMax⟩
  · right
    rw [if_neg hnull] at h
    split at h
    · cases h
    · rename_i hall
      obtain ⟨a, b, hends⟩ := exists_ends hall
      simp only [hends.minOf_eq, hends.maxOf_eq, WithBot.recBotCoe_coe, valInt_lowEnd,
        valInt_highEnd] at h
      refine ⟨a, b, hends, ?_⟩
      split at h
      · cases h
      · refine ⟨‹_›, ?_⟩
        split at h
        · cases h
        · rw [walkOf]
          split_ifs at h ⊢ with hsub
          · exact (Pruning.iterator.inj h).symm
          · exact (Pruning.iterator.inj h).symm

/-! ## Soundness -/

variable {x : WithBot ℤ}

theorem yields_single :
    Yields (info.getNext y) (.single ⟨q, q, q + 1, false, false⟩) p ↔ p = q := by
  have hmap (it : PartIter) : Yields (info.getNext y) (.single it) p ↔
      Yields getNextPartitionIdRange it p := yields_map WalkIter.single fun _ => rfl
  rw [hmap, getNextPartitionIdRange, yields_getNextPartitionId]
  simp only [Bool.false_eq_true, false_and, or_false, id_eq]
  constructor
  · rintro ⟨i, hi, his, rfl⟩
    exact Nat.le_antisymm (Nat.le_of_lt_succ his) hi
  · rintro rfl
    exact ⟨p, le_rfl, p.lt_succ_self, rfl⟩

theorem yields_parts_iff {a b : ℤ} (hends : Ends info.field iv a b)
    (hrange : Ranges it (lowEnd iv a) (highEnd iv b)) :
    Yields (info.getNext y) (.parts it) p ↔
      ∃ w : ℤ, info.field.keyField.Contains iv w ∧ info.getPartPartitionId w = some p := by
  have hmap : Yields (info.getNext y) (.parts it) p ↔
      Yields (info.getNextPartitionViaWalking y) it p := yields_map WalkIter.parts fun _ => rfl
  rw [hmap, yields_parts]
  simp only [hrange.value_eq]
  rw [hrange.exists_iff (P := fun w => info.partAt (valInt w) = some p)]
  refine exists_congr fun w => ?_
  rw [← and_assoc, ← hends.contains_iff]
  refine and_congr_right fun hw => ?_
  rw [partAt, store_valInt_self (hends.inRange hw)]

def storedSubpart (info : WalkInfo) (w : ℤ) : Option ℕ :=
  info.getSubpartitionId ((info.walkField true).storedAsSigned w : ℤ)

theorem yields_subparts_iff (hs : info.sub = some s) {a b : ℤ}
    (hends : Ends (info.walkField true) iv a b) (hrange : Ranges it (lowEnd iv a) (highEnd iv b)) :
    Yields (info.getNext y) (.subparts it) p ↔
      ∃ w : ℤ, (info.walkField true).keyField.Contains iv w ∧
        (∀ u : ℤ, (info.walkField true).keyField.Contains iv u → u < w →
          info.storedSubpart u ≠ none) ∧
        info.storedSubpart w = some p := by
  have hmap : Yields (info.getNext y) (.subparts it) p ↔
      Yields info.getNextSubpartitionViaWalking it p := yields_map WalkIter.subparts fun _ => rfl
  have hstore : ∀ w : ℤ, (info.walkField true).keyField.Contains iv w →
      info.subpartAt (valInt w) = info.storedSubpart w := fun w hw => by
    rw [subpartAt, store_valInt_false (hends.inRange hw), storedSubpart]
  rw [hmap, yields_subparts hs]
  simp only [hrange.value_eq]
  have hcontains : ∀ k : ℕ, k < it.rest →
      (info.walkField true).keyField.Contains iv ((lowEnd iv a + k : ℤ) : WithBot ℤ) := by
    intro k hk
    have hrest := hrange.rest_eq
    exact hends.contains_iff.mpr ⟨by omega, by omega⟩
  constructor
  · rintro ⟨k, hk, hbefore, hp⟩
    refine ⟨lowEnd iv a + k, hcontains k hk, ?_, hstore _ (hcontains k hk) ▸ hp⟩
    intro u hu hlt
    obtain ⟨j, hj⟩ := Int.eq_ofNat_of_zero_le (sub_nonneg.mpr (hends.contains_iff.mp hu).1)
    have hju : u = lowEnd iv a + j := by omega
    subst hju
    rw [← hstore _ hu]
    exact hbefore j (by omega)
  · rintro ⟨w, hw, hbefore, hp⟩
    have hrest := hrange.rest_eq
    have hc := hends.contains_iff.mp hw
    obtain ⟨k, hk⟩ := Int.eq_ofNat_of_zero_le (sub_nonneg.mpr hc.1)
    have hkw : w = lowEnd iv a + k := by omega
    subst hkw
    refine ⟨k, by omega, ?_, by rw [hstore _ hw, hp]⟩
    intro j hj
    have hcj := hcontains j (by omega)
    rw [hstore _ hcj]
    exact hbefore _ hcj (by omega)

/-- A row of the interval is found by the walk over the partitions always, and by the walk over
the subpartitions exactly if another value, stored as a signed one, leads to its subpartition
before the first value without one. -/
theorem walking_finds_iff (isSubpart : Bool) (iv : Interval) (wit : WalkIter) (y x : WithBot ℤ)
    (p : ℕ) (hiter : info.getPartIterForIntervalViaWalking isSubpart iv = .iterator wit)
    (hx : (info.walkField isSubpart).keyField.Contains iv x)
    (hp : info.walkId isSubpart x = some p) :
    Yields (info.getNext y) wit p ↔
      (isSubpart = true → x ≠ ⊥ →
        ∃ w : ℤ, (info.walkField true).keyField.Contains iv w ∧
          (∀ u : ℤ, (info.walkField true).keyField.Contains iv u → u < w →
            info.storedSubpart u ≠ none) ∧
          info.storedSubpart w = some p) := by
  obtain ⟨q, hq, rfl, hmax, hnoMax⟩ | ⟨a, b, hends, hdiff, rfl⟩ := walking_cases hiter
  · have hbot : x = ⊥ := by
      have hin := hx.2 hnoMax
      rw [hmax] at hin
      cases hn : iv.flags.nearMax with
      | true => exact absurd (by rw [hn] at hin; exact hin) (WithBot.not_lt_bot x)
      | false => exact le_bot_iff.mp (by rw [hn] at hin; exact hin)
    subst hbot
    rw [hq, Option.some_inj] at hp
    subst hp
    exact iff_of_true (yields_single.mpr rfl) fun _ hne => absurd rfl hne
  · induction x using WithBot.recBotCoe with
    | bot => exact absurd hx hends.not_contains_bot
    | coe v =>
      have hrange := hends.ranges hdiff hx
      cases isSubpart with
      | false =>
        have hy := (yields_parts_iff (y := y) hends hrange).mpr ⟨v, hx, hp⟩
        exact iff_of_true hy fun h => absurd h Bool.false_ne_true
      | true =>
        obtain ⟨s, hs⟩ : ∃ s, info.sub = some s := by
          cases hs : info.sub with
          | none => simp [walkId, getSubpartitionId, hs] at hp
          | some s => exact ⟨s, rfl⟩
        rw [walkOf, if_pos rfl, yields_subparts_iff hs hends hrange]
        simp [WithBot.coe_ne_bot]

end WalkInfo

/-! ## Large values of an unsigned column -/

def fieldItem (unsignedFlag : Bool) : PartExpr ℤ where
  valInt := WithBot.map valInt
  isError _ := false
  valIntEndpoint x _ incl :=
    ⟨WithBot.recBotCoe longlongMin valInt x, x == ⊥, incl⟩
  unsignedFlag := unsignedFlag
  monotonicityInfo := .strictIncreasing
  valInt_bot := rfl

/-- `PARTITION BY RANGE (a) SUBPARTITION BY HASH (id) SUBPARTITIONS 4 (PARTITION p0 VALUES LESS
THAN (10))`, where `id` is `BIGINT UNSIGNED NOT NULL`. -/
def hashById : WalkInfo where
  field := ⟨.long, false, false⟩
  func := .range ⟨[10], false, by decide, by decide, by decide⟩ (fieldItem false)
  numParts := 1
  sub := some ⟨⟨.longlong, true, false⟩, .hash (fieldItem true) 4, 4⟩

/-- `id BETWEEN 9223372036854775809 AND 9223372036854775810`. -/
def largeIds : Interval where
  flags := ⟨false, false, false, false⟩
  minValue := some [1, 0, 0, 0, 0, 0, 0, 0x80]
  maxValue := some [2, 0, 0, 0, 0, 0, 0, 0x80]

def largeIdsIter (cur : Longlong) : WalkIter :=
  .subparts ⟨0x8000000000000001, cur, 0x8000000000000003⟩

theorem getPartIter_largeIds :
    hashById.getPartIterForIntervalViaWalking true largeIds =
      .iterator (largeIdsIter 0x8000000000000001) := rfl

theorem contains_largeIds :
    (hashById.walkField true).keyField.Contains largeIds ((2 ^ 63 + 1 : ℤ) : WithBot ℤ) :=
  ⟨fun _ => WithBot.coe_le_coe.mpr (by decide), fun _ => WithBot.coe_le_coe.mpr (by decide)⟩

theorem walkId_largeIds : hashById.walkId true ((2 ^ 63 + 1 : ℤ) : WithBot ℤ) = some 3 := rfl

/-- The value is stored as zero, so the walk returns only the first subpartition. -/
theorem largeIds_not_walked :
    hashById.getPartIterForIntervalViaWalking true largeIds =
        .iterator (largeIdsIter 0x8000000000000001) ∧
      (hashById.walkField true).keyField.Contains largeIds ((2 ^ 63 + 1 : ℤ) : WithBot ℤ) ∧
      hashById.walkId true ((2 ^ 63 + 1 : ℤ) : WithBot ℤ) = some 3 ∧
      ¬ Yields (hashById.getNext ⊥) (largeIdsIter 0x8000000000000001) 3 := by
  refine ⟨getPartIter_largeIds, contains_largeIds, walkId_largeIds, ?_⟩
  have hfirst : hashById.getNext ⊥ (largeIdsIter 0x8000000000000001) =
      (some 0, largeIdsIter 0x8000000000000002) := rfl
  have hsecond : hashById.getNext ⊥ (largeIdsIter 0x8000000000000002) =
      (some 0, largeIdsIter 0x8000000000000003) := rfl
  have hend : hashById.getNext ⊥ (largeIdsIter 0x8000000000000003) =
      (none, largeIdsIter 0x8000000000000001) := rfl
  rw [yields_iff hfirst, yields_iff hsecond]
  rintro (h | h | h)
  · exact absurd h (by decide)
  · exact absurd h (by decide)
  · exact not_yields hend h

theorem walking_finds_iff_largeIds :
    Yields (hashById.getNext ⊥) (largeIdsIter 0x8000000000000001) 3 ↔
      (true = true → ((2 ^ 63 + 1 : ℤ) : WithBot ℤ) ≠ ⊥ →
        ∃ w : ℤ, (hashById.walkField true).keyField.Contains largeIds w ∧
          (∀ u : ℤ, (hashById.walkField true).keyField.Contains largeIds u → u < w →
            hashById.storedSubpart u ≠ none) ∧
          hashById.storedSubpart w = some 3) :=
  WalkInfo.walking_finds_iff true largeIds _ ⊥ _ 3 getPartIter_largeIds contains_largeIds
    walkId_largeIds

end MySQL.Sql.Partition
