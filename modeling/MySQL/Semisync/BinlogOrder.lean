import MySQL.Lib.Radix
import MySQL.Semisync.ActiveTranxSafety

/-!
# The order of the log files

The names of the log files are compared as strings.  This is the order in which the files are
written as long as their numbers have equally many digits.
-/

namespace MySQL.Semisync

open List Ordering ActiveTranx

open MySQL.Lib

theorem strcmp_eq_lexCmp (l m : List UInt8) :
    strcmp l m = lexCmp (l.map UInt8.toNat) (m.map UInt8.toNat) := by
  induction l generalizing m with
  | nil => cases m <;> rfl
  | cons a l ih =>
    cases m with
    | nil => rfl
    | cons b m =>
      rw [strcmp, ih, map_cons, map_cons, lexCmp]
      simp only [UInt8.lt_iff_toNat_lt]
      split_ifs with hlt hgt
      · rw [compare_lt_iff_lt.2 hlt, lt_then]
      · rw [compare_gt_iff_gt.2 hgt, gt_then]
      · rw [compare_eq_iff_eq.2 (by omega), eq_then]

/-! ## File names -/

/-- The number of digits that `%06lu` writes. -/
def extWidth (number : ℕ) : ℕ := max 6 (Nat.log 10 number + 1)

def logExt (number : ℕ) : List UInt8 :=
  (bigEndian 10 (extWidth number) number).map fun d => UInt8.ofNat (48 + d)

variable (base : List UInt8) (number : ℕ)

def logName : List UInt8 := base ++ 46 :: logExt number

theorem lt_pow_extWidth : number < 10 ^ extWidth number :=
  (Nat.lt_pow_succ_log_self (by decide) number).trans_le
    (Nat.pow_le_pow_right (by decide) (le_max_right _ _))

theorem extWidth_mono {N M : ℕ} (h : N ≤ M) : extWidth N ≤ extWidth M :=
  max_le_max le_rfl (Nat.succ_le_succ (Nat.log_mono_right h))

theorem map_toNat_logExt :
    (logExt number).map UInt8.toNat = (bigEndian 10 (extWidth number) number).map (48 + ·) := by
  rw [logExt, List.map_map]
  refine map_congr_left fun d hd => ?_
  have hlt : d < 10 := bigEndian_lt (by decide) d hd
  rw [Function.comp_apply, UInt8.toNat_ofNat', Nat.mod_eq_of_lt (by omega)]

theorem lexCmp_map_add (k : ℕ) (l m : List ℕ) :
    lexCmp (l.map (k + ·)) (m.map (k + ·)) = lexCmp l m := by
  induction l generalizing m with
  | nil => cases m <;> rfl
  | cons a l ih =>
    cases m with
    | nil => rfl
    | cons b m =>
      rw [map_cons, map_cons, lexCmp, lexCmp, ih,
        compare_map fun _ _ h => Nat.add_lt_add_left h k]

theorem lexCmp_self (l : List ℕ) : lexCmp l l = .eq := by
  induction l with
  | nil => rfl
  | cons a l ih => rw [lexCmp, ih, compare_eq_iff_eq.2 rfl, eq_then]

theorem strcmp_logName (N M : ℕ) :
    strcmp (logName base N) (logName base M) =
      lexCmp (bigEndian 10 (extWidth N) N) (bigEndian 10 (extWidth M) M) := by
  rw [strcmp_eq_lexCmp, logName, logName, map_append, map_append, lexCmp_append rfl,
    lexCmp_self, map_cons, map_cons, lexCmp, compare_eq_iff_eq.2 rfl, map_toNat_logExt,
    map_toNat_logExt, lexCmp_map_add, eq_then, eq_then]

theorem lexCmp_bigEndian_of_lt {a b x y : ℕ} (hab : a < b) (hx : x < 10 ^ a) (hy : y < 10 ^ b) :
    lexCmp (bigEndian 10 a x) (bigEndian 10 b y) =
      (compare x (y / 10 ^ (b - a))).then .lt := by
  have htake := take_bigEndian (B := 10) (x := y) (by decide) hab.le
  have hlead : y / 10 ^ (b - a) < 10 ^ a := by
    apply Nat.div_lt_of_lt_mul
    rwa [← Nat.pow_add, Nat.sub_add_cancel hab.le]
  have hrest : (bigEndian 10 b y).drop a ≠ [] := by
    rw [ne_eq, drop_eq_nil_iff, length_bigEndian]
    exact hab.not_ge
  have hnil : lexCmp [] ((bigEndian 10 b y).drop a) = .lt := by
    cases hdrop : (bigEndian 10 b y).drop a with
    | nil => exact absurd hdrop hrest
    | cons d l => rfl
  rw [← take_append_drop a (bigEndian 10 b y), htake, ← append_nil (bigEndian 10 a x),
    lexCmp_append (by rw [length_bigEndian, length_bigEndian]),
    lexCmp_bigEndian (by decide) hx hlead]
  rw [hnil]

/-! ## Positions -/

def LeadingDigitsOrdered (N M : ℕ) : Prop :=
  min N M ≤ max N M / 10 ^ (extWidth (max N M) - extWidth (min N M))

instance (N M : ℕ) : Decidable (LeadingDigitsOrdered N M) :=
  inferInstanceAs (Decidable (_ ≤ _))

theorem leadingDigitsOrdered_of_lt {N M : ℕ} (h : N < M) :
    LeadingDigitsOrdered N M ↔ N ≤ M / 10 ^ (extWidth M - extWidth N) := by
  rw [LeadingDigitsOrdered, min_eq_left h.le, max_eq_right h.le]

theorem leadingDigitsOrdered_comm {N M : ℕ} :
    LeadingDigitsOrdered N M ↔ LeadingDigitsOrdered M N := by
  rw [LeadingDigitsOrdered, LeadingDigitsOrdered, min_comm, max_comm]

theorem leadingDigitsOrdered_of_extWidth_eq {N M : ℕ} (h : extWidth N = extWidth M) :
    LeadingDigitsOrdered N M := by
  have hwidth : extWidth (max N M) - extWidth (min N M) = 0 := by
    rcases le_total N M with hle | hle
    · rw [max_eq_right hle, min_eq_left hle]
      omega
    · rw [max_eq_left hle, min_eq_right hle]
      omega
  rw [LeadingDigitsOrdered, hwidth, pow_zero, Nat.div_one]
  exact min_le_max

theorem strcmp_logName_of_lt {N M : ℕ} (h : N < M) :
    strcmp (logName base N) (logName base M) = if LeadingDigitsOrdered N M then .lt else .gt := by
  rw [strcmp_logName]
  rcases (extWidth_mono h.le).lt_or_eq with hwidth | hwidth
  · rw [lexCmp_bigEndian_of_lt hwidth (lt_pow_extWidth N) (lt_pow_extWidth M)]
    simp only [leadingDigitsOrdered_of_lt h]
    rcases lt_trichotomy N (M / 10 ^ (extWidth M - extWidth N)) with hlt | heq | hgt
    · rw [if_pos hlt.le, compare_lt_iff_lt.2 hlt, lt_then]
    · rw [if_pos heq.le, compare_eq_iff_eq.2 heq, eq_then]
    · rw [if_neg hgt.not_ge, compare_gt_iff_gt.2 hgt, gt_then]
  · rw [if_pos (leadingDigitsOrdered_of_extWidth_eq hwidth), hwidth,
      lexCmp_bigEndian (by decide) (hwidth ▸ lt_pow_extWidth N) (lt_pow_extWidth M),
      compare_lt_iff_lt.2 h]

theorem strcmp_swap (l m : List UInt8) : (strcmp l m).swap = strcmp m l := by
  rw [strcmp_eq_lexCmp, strcmp_eq_lexCmp, lexCmp_swap]

theorem logPos_compare_eq_then (p q : LogPos) :
    p.compare q = (strcmp p.name q.name).then (compare p.pos.toNat q.pos.toNat) := by
  rw [LogPos.compare]
  cases strcmp p.name q.name with
  | lt => rfl
  | gt => rfl
  | eq =>
    simp only [gt_iff_lt, UInt64.lt_iff_toNat_lt, eq_then]
    split_ifs with hgt hlt
    · exact (compare_gt_iff_gt.2 hgt).symm
    · exact (compare_lt_iff_lt.2 hlt).symm
    · exact (compare_eq_iff_eq.2 (by omega)).symm

def writeOrder (N : ℕ) (p : UInt64) (M : ℕ) (q : UInt64) : Ordering :=
  (compare N M).then (compare p.toNat q.toNat)

theorem compare_logName_iff (N M : ℕ) (p q : UInt64) :
    LogPos.compare ⟨logName base N, p⟩ ⟨logName base M, q⟩ = writeOrder N p M q ↔
      LeadingDigitsOrdered N M := by
  rw [logPos_compare_eq_then, writeOrder]
  rcases lt_trichotomy N M with hlt | rfl | hgt
  · rw [strcmp_logName_of_lt base hlt, compare_lt_iff_lt.2 hlt]
    split_ifs with hdigits
    · exact iff_of_true rfl hdigits
    · exact iff_of_false noConfusion hdigits
  · have heq : strcmp (logName base N) (logName base N) = .eq := by
      rw [strcmp_eq_lexCmp, lexCmp_self]
    rw [heq, compare_eq_iff_eq.2 rfl]
    exact iff_of_true rfl (leadingDigitsOrdered_of_extWidth_eq rfl)
  · rw [← strcmp_swap, strcmp_logName_of_lt base hgt, compare_gt_iff_gt.2 hgt,
      leadingDigitsOrdered_comm (N := N)]
    split_ifs with hdigits
    · exact iff_of_true rfl hdigits
    · exact iff_of_false noConfusion hdigits

namespace ActiveTranx

theorem Holds.insertTranxNode_eq_zero_iff {s : ActiveTranx} {l : List NodeAddr} {a : NodeAddr}
    {malloc : Option ℕ} {p : LogPos} (h : s.Holds (l ++ [a])) (hfresh : s.Fresh malloc)
    (halloc : (s.allocator.allocateNode malloc).2 ≠ none) (hshort : p.name.length < 512) :
    (s.insertTranxNode malloc p).2 = 0 ↔ p.compare (s.logPos a) = .gt := by
  have heffect := h.insertTranxNode (p := p) hfresh
  rcases hinsert : s.insertTranxNode malloc p with ⟨s', result⟩
  rw [hinsert] at heffect
  rw [LogPos.compare_eq_gt]
  cases heffect with
  | refused hholds' hsame hnum hreason =>
    obtain ⟨b, hb, hle⟩ := hreason.resolve_left halloc
    rw [storedPos_eq hshort] at hle
    refine iff_of_false (show ¬(-1 : ℤ) = 0 by decide) (not_lt.2 (hle.trans ?_))
    rcases mem_append.1 hb with hb | hb
    · exact ((pairwise_append.1 h.increasing).2.2 b hb a mem_cons_self).le
    · rw [mem_singleton.1 hb]
  | appended hholds' hnum hnew hold hlast =>
    have hlt := hlast a (mem_append_right l mem_cons_self)
    rw [storedPos_eq hshort] at hlt
    exact iff_of_true rfl hlt

end ActiveTranx

/-- Positions of log files of one base name are compared in the order in which the log is written if
and only if the leading digits of the larger number are not below the smaller number.  A transaction
behind the last one of the list is accepted in the same case. -/
theorem binlogOrder_iff (base : List UInt8) (N M : ℕ) (p q : UInt64) :
    (LogPos.compare ⟨logName base N, p⟩ ⟨logName base M, q⟩ = writeOrder N p M q ↔
      LeadingDigitsOrdered N M) ∧
    ∀ (s : ActiveTranx) (l : List NodeAddr) (a : NodeAddr) (malloc : Option ℕ),
      s.Holds (l ++ [a]) → s.Fresh malloc → (s.allocator.allocateNode malloc).2 ≠ none →
      s.logPos a = ⟨logName base N, p⟩ → (logName base M).length < 512 →
      writeOrder M q N p = .gt →
      ((s.insertTranxNode malloc ⟨logName base M, q⟩).2 = 0 ↔ LeadingDigitsOrdered N M) := by
  refine ⟨compare_logName_iff base N M p q, ?_⟩
  intro s l a malloc hholds hfresh halloc hlast hshort horder
  rw [hholds.insertTranxNode_eq_zero_iff hfresh halloc hshort, hlast, leadingDigitsOrdered_comm,
    ← compare_logName_iff base M N q p, horder]

theorem binlogOrder_iff_next :
    ∃ s : ActiveTranx, (s.insertTranxNode none ⟨logName [97] 2, 4⟩).2 = 0 ∧
      ∃ a, s.Holds [a] ∧ s.logPos a = ⟨logName [97] 1, 9⟩ := by
  have hholds := holds_new Nat.one_pos zeroMemory
  have hfresh : (new 1 zeroMemory).Fresh (some 0) :=
    fun _ _ => not_mem_nil
  have heffect := hholds.insertTranxNode (p := ⟨logName [97] 1, 9⟩) hfresh
  rcases hinsert : (new 1 zeroMemory).insertTranxNode (some 0)
    ⟨logName [97] 1, 9⟩ with ⟨s, result⟩
  have hresult : ((new 1 zeroMemory).insertTranxNode (some 0)
    ⟨logName [97] 1, 9⟩).2 = 0 := by decide +kernel
  have halloc : (((new 1 zeroMemory).insertTranxNode (some 0)
    ⟨logName [97] 1, 9⟩).1.allocator.allocateNode none).2 ≠ none := by decide +kernel
  rw [hinsert] at heffect hresult halloc
  cases heffect with
  | refused hholds' hsame hnum hreason => exact absurd hresult (show ¬(-1 : ℤ) = 0 by decide)
  | @appended s a hholds' hnum hnew hold hlast =>
    have hpos : s.logPos a = ⟨logName [97] 1, 9⟩ :=
      hnew.trans (storedPos_eq (by decide))
    refine ⟨s, ?_, a, hholds', hpos⟩
    apply ((binlogOrder_iff [97] 1 2 9 4).2 s [] a none hholds' _ halloc hpos _ _).2
    · decide
    · exact fun _ hb => absurd hb.symm (Option.some_ne_none _)
    · decide
    · decide

/-- File 1000000 comes after file 999999, and is taken for an earlier one. -/
theorem binlogOrder_rotation :
    writeOrder 1000000 4 999999 4 = .gt ∧
      LogPos.compare ⟨logName [97] 1000000, 4⟩ ⟨logName [97] 999999, 4⟩ = .lt ∧
      ((((new 1 zeroMemory).insertTranxNode (some 0)
        ⟨logName [97] 999999, 4⟩).1).insertTranxNode none ⟨logName [97] 1000000, 4⟩).2 = -1 := by
  decide +kernel

end MySQL.Semisync
