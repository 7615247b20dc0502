import MySQL.Lib.Bags
import MySQL.Mysys.Queue

/-!
# The order of a priority queue

`_downheap` puts an element to its place below its position, and does not look at what is above
it.  So every call keeps the order but `queue_remove`, which puts the last element in the place
of another one: there it may come before its new parent.
-/

namespace MySQL.Mysys.Queue

open Lib Function

variable {α : Type*} {compare : α → α → ℤ} {q : Queue α} {root : ℕ → α} {b n h idx : ℕ}
  {x : α}

/-- The signs that `max_at_top` can be. -/
def Signed (q : Queue α) : Prop := q.maxAtTop = 1 ∨ q.maxAtTop = -1

/-- `a` may be the parent of `b`. -/
abbrev Le (compare : α → α → ℤ) (q : Queue α) (a b : α) : Prop := ¬ q.cmp compare b a < 0

def contents (q : Queue α) : Multiset α := bag q.root (Finset.Icc 1 q.elements)

theorem Icc_succ (n : ℕ) : Finset.Icc 1 (n + 1) = insert (n + 1) (Finset.Icc 1 n) := by
  ext i
  simp only [Finset.mem_Icc, Finset.mem_insert]
  omega

section

variable (hc : TotalCmp (q.cmp compare))
include hc

theorem le_trans' (a b c : α) (hab : q.Le compare a b) (hbc : q.Le compare b c) :
    q.Le compare a c :=
  hc.not_lt.mpr (hc.trans a b c (hc.not_lt.mp hab) (hc.not_lt.mp hbc))

theorem le_of_lt' {a b : α} (h : q.cmp compare a b < 0) : q.Le compare a b :=
  hc.not_lt.mpr h.le

theorem nextIndex_spec (root : ℕ → α) (hidx : idx ≤ q.elements / 2) :
    q.nextIndex compare root idx / 2 = idx ∧ q.nextIndex compare root idx ≤ q.elements ∧
      ∀ i ≤ q.elements, i / 2 = idx →
        q.Le compare (root (q.nextIndex compare root idx)) (root i) := by
  have hself (a : α) : q.Le compare a a := by
    rw [Le, hc.self]
    exact lt_irrefl 0
  unfold nextIndex
  split
  · next hlt =>
    refine ⟨by omega, by omega, fun i hi hidx' => ?_⟩
    obtain rfl | rfl : i = idx + idx ∨ i = idx + idx + 1 := by omega
    · exact not_lt_of_gt hlt.2
    · exact hself _
  · next hlt =>
    refine ⟨by omega, by omega, fun i hi hidx' => ?_⟩
    obtain rfl | rfl : i = idx + idx ∨ i = idx + idx + 1 := by omega
    · exact hself _
    · have hle : ¬ 0 < q.cmp compare (root (idx + idx)) (root (idx + idx + 1)) :=
        fun hpos => hlt ⟨by omega, hpos⟩
      exact fun hneg => hle ((hc.swap _ _).mpr hneg)

theorem below_climb (hhole : HeapHole (q.Le compare) b n h root) (hb : 0 < b) (hbh : b ≤ h / 2)
    (hx : q.Le compare x (root (h / 2))) (i : ℕ) (hi : i ≤ n) (hih : i / 2 = h / 2) :
    q.Le compare x (update root h (root (h / 2)) i) := by
  by_cases hieq : i = h
  · rw [hieq, update_self]
    exact hx
  · rw [update_of_ne hieq]
    refine le_trans' hc _ _ _ hx ?_
    rw [← hih]
    exact hhole.order i hi (by omega) hieq (by omega)

/-! ## Inserting -/

theorem insertLoop_spec {fuel : ℕ} (hfuel : idx < fuel) (hpos : 0 < idx) (hn : idx ≤ n)
    (hzero : root 0 = x) (hhole : HeapHole (q.Le compare) 1 n idx root)
    (hbelow : ∀ i ≤ n, i / 2 = idx → q.Le compare x (root i)) :
    ∃ root', q.insertLoop compare x fuel root idx = some root' ∧
      HeapFrom (q.Le compare) 1 n root' ∧
      bag root' (Finset.Icc 1 n) = bag (update root idx x) (Finset.Icc 1 n) := by
  induction fuel generalizing root idx with
  | zero => omega
  | succ fuel ih =>
    simp only [insertLoop]
    split
    · next hlt =>
      -- at the top the element would be compared with itself
      have hidx : 2 ≤ idx := by
        by_contra hsmall
        obtain rfl : idx = 1 := by omega
        rw [hzero, hc.self] at hlt
        exact lt_irrefl 0 hlt
      have hclimb := hhole.climb (le_trans' hc) one_pos (by omega) hn
      have hbelow' := below_climb hc hhole one_pos (by omega) (le_of_lt' hc hlt)
      obtain ⟨root', heq, hheap, hbag⟩ := ih (by omega) (by omega) (by omega)
        (by rw [update_of_ne (by omega), hzero]) hclimb hbelow'
      refine ⟨root', heq, hheap, hbag.trans (bag_move ?_ ?_)⟩ <;> rw [Finset.mem_Icc] <;> omega
    · next hle => exact ⟨_, rfl, hhole.fill one_pos (fun _ _ => hle) hbelow, rfl⟩

theorem queueInsert_spec (hheap : q.IsHeap compare) (x : α) :
    ∃ q', q.queueInsert compare x = some q' ∧ q'.maxAtTop = q.maxAtTop ∧ q'.IsHeap compare ∧
      q'.contents = x ::ₘ q.contents := by
  have hhole : HeapHole (q.Le compare) 1 (q.elements + 1) (q.elements + 1)
      (update q.root 0 x) := by
    refine ⟨fun i hi hb hne _ => ?_, fun i hi hi2 => by omega⟩
    rw [update_of_ne (by omega), update_of_ne (by omega)]
    exact hheap i (by omega) hb
  obtain ⟨root', heq, horder, hbag⟩ := insertLoop_spec hc (Nat.lt_succ_self _) (Nat.succ_pos _)
    le_rfl (update_self ..) hhole (fun i hi hi2 => by omega)
  refine ⟨{ q with root := root', elements := q.elements + 1 }, ?_, rfl, horder, ?_⟩
  · rw [queueInsert, heq]
    rfl
  · rw [contents, hbag, Icc_succ, bag_update_insert (by simp)]
    congr 1
    refine bag_congr fun i hi => update_of_ne ?_ ..
    rw [Finset.mem_Icc] at hi
    omega

/-! ## The way down and back -/

def Under (start h : ℕ) : Prop := ∃ k, h / 2 ^ k = start

omit hc in
theorem Under.parent {start : ℕ} (hu : Under start h) (hne : h ≠ start) : Under start (h / 2) := by
  obtain ⟨k, hk⟩ := hu
  cases k with
  | zero => exact absurd (by simpa using hk) hne
  | succ k => exact ⟨k, by rw [Nat.div_div_eq_div_mul, ← Nat.pow_succ', hk]⟩

omit hc in
theorem Under.child {start c : ℕ} (hu : Under start h) (hc : c / 2 = h) : Under start c := by
  obtain ⟨k, hk⟩ := hu
  refine ⟨k + 1, ?_⟩
  rw [Nat.pow_succ', ← Nat.div_div_eq_div_mul, hc, hk]

omit hc in
theorem Under.le {start : ℕ} (hu : Under start h) : start ≤ h := by
  obtain ⟨k, rfl⟩ := hu
  exact Nat.div_le_self ..

theorem downLoop_spec (fuel start : ℕ) (hfuel : q.elements < fuel + h) (hb : 0 < b) (hbh : b ≤ h)
    (hn : h ≤ q.elements) (hu : Under start h) (hne : h ≠ start)
    (hhole : HeapHole (q.Le compare) b q.elements h root) :
    ∃ root' h', q.downLoop compare x fuel false root h = some (.inr (root', h')) ∧
      HeapHole (q.Le compare) b q.elements h' root' ∧ b ≤ h' ∧ h' ≤ q.elements ∧
      q.elements / 2 < h' ∧ Under start h' ∧ h' ≠ start ∧ root' start = root start ∧
      bag (update root' h' x) (Finset.Icc 1 q.elements) =
        bag (update root h x) (Finset.Icc 1 q.elements) := by
  induction fuel generalizing root h with
  | zero => omega
  | succ fuel ih =>
    simp only [downLoop]
    split
    · next hhalf =>
      obtain ⟨hnext, hle, hmin⟩ := nextIndex_spec hc root hhalf
      have hstart := hu.le
      obtain ⟨root', h', heq, hhole', hbh', hn', hleaf, hu', hne', hroot, hbag⟩ :=
        ih (by omega) (by omega) hle (hu.child hnext) (by omega)
          (hhole.sink hb hbh hnext hle hmin)
      refine ⟨root', h', heq, hhole', hbh', hn', hleaf, hu', hne', ?_, ?_⟩
      · rw [hroot, update_of_ne (Ne.symm hne)]
      · refine hbag.trans (bag_move ?_ ?_) <;> rw [Finset.mem_Icc] <;> omega
    · next hhalf =>
      exact ⟨root, h, rfl, hhole, hbh, hn, by omega, hu, hne, rfl, rfl⟩

theorem upLoop_spec {fuel start : ℕ} (hfuel : h < fuel) (hb : 0 < b) (hbs : b ≤ start)
    (hn : h ≤ n) (hu : Under start h) (hne : h ≠ start) (hhole : HeapHole (q.Le compare) b n h root)
    (hbelow : ∀ i ≤ n, i / 2 = h → q.Le compare x (root i)) (hstart : q.Le compare (root start) x) :
    ∃ root', q.upLoop compare x start fuel root h = some root' ∧
      HeapFrom (q.Le compare) b n root' ∧
      bag root' (Finset.Icc 1 n) = bag (update root h x) (Finset.Icc 1 n) := by
  induction fuel generalizing root h with
  | zero => omega
  | succ fuel ih =>
    simp only [upLoop]
    have hparent := hu.parent hne
    split
    · next hlt =>
      split
      · next hbefore =>
        exact ⟨_, rfl, hhole.fill hb (fun _ _ => le_of_lt' hc hbefore) hbelow, rfl⟩
      · next hle =>
        have hclimb := hhole.climb (le_trans' hc) hb (by omega) hn
        have hbelow' := below_climb hc hhole hb (by omega) hle
        obtain ⟨root', heq, hheap, hbag⟩ := ih (by omega) (by omega) hparent (by omega) hclimb
          hbelow' (by rwa [update_of_ne (Ne.symm hne)])
        refine ⟨root', heq, hheap, hbag.trans (bag_move ?_ ?_)⟩ <;> rw [Finset.mem_Icc] <;>
          omega
    · next hle =>
      have heq : h / 2 = start := le_antisymm (not_lt.mp hle) hparent.le
      refine ⟨_, rfl, hhole.fill hb (fun _ _ => ?_) hbelow, rfl⟩
      rwa [heq]

/-- `_downheap` puts the element to its place below the position.  If it comes before the parent of
the position, nothing is changed. -/
theorem downheap_spec (hb : 0 < b) (hbi : b ≤ idx)
    (hhole : HeapHole (q.Le compare) b q.elements idx q.root) :
    ∃ root', q.downheap compare idx = some { q with root := root' } ∧
      bag root' (Finset.Icc 1 q.elements) = q.contents ∧
      ((idx ≤ q.elements → b ≤ idx / 2 → q.Le compare (q.root (idx / 2)) (q.root idx)) →
        HeapFrom (q.Le compare) b q.elements root') ∧
      (b ≤ idx / 2 → ¬ q.Le compare (q.root (idx / 2)) (q.root idx) → root' = q.root) := by
  have hself : update q.root idx (q.root idx) = q.root := update_eq_self ..
  unfold downheap
  simp only [downLoop]
  split
  · next hhalf =>
    obtain ⟨hnext, hle, hmin⟩ := nextIndex_spec hc q.root hhalf
    split
    · next hstay =>
      -- the element is not after its children
      refine ⟨q.root, by simp, rfl, fun hup => ?_, fun _ _ => rfl⟩
      rw [← hself]
      refine hhole.fill hb hup fun i hi hi2 => ?_
      exact le_trans' hc _ _ _ (hc.not_lt.mpr (hc.le_of_lt hstay.2)) (hmin i hi hi2)
    · next hsink =>
      have hlt : q.cmp compare (q.root (q.nextIndex compare q.root idx)) (q.root idx) < 0 := by
        simpa using hsink
      obtain ⟨root', h', heq, hhole', hbh', hn', hleaf, hu', hne', hroot, hbag⟩ :=
        downLoop_spec (x := q.root idx) hc q.elements idx (by omega) hb
          (by omega) hle (Under.child ⟨0, by simp⟩ hnext) (by omega)
          (hhole.sink hb hbi hnext hle hmin)
      rw [update_self] at hroot
      obtain ⟨root'', heq', hheap, hbag'⟩ := upLoop_spec hc
        (Nat.lt_succ_self h') hb hbi hn' hu' hne' hhole' (fun i hi hi2 => by omega)
        (by rw [hroot]; exact le_of_lt' hc hlt)
      refine ⟨root'', by simp [heq, heq'], ?_, fun _ => hheap, fun hbp hno => ?_⟩
      · rw [hbag', hbag]
        refine (bag_move ?_ ?_).trans (by rw [hself]; rfl) <;> rw [Finset.mem_Icc] <;> omega
      · refine absurd ?_ hno
        have hskip := hhole.skip _ hle hnext hbp
        exact le_trans' hc _ _ _ hskip (le_of_lt' hc hlt)
  · next hhalf =>
    -- there is nothing below the position
    have hup : q.upLoop compare (q.root idx) idx (idx + 1) q.root idx = some q.root := by
      rw [upLoop, if_neg (by omega), hself]
    refine ⟨q.root, by simp [hup], rfl, fun hup => ?_, fun _ _ => rfl⟩
    rw [← hself]
    exact hhole.fill hb hup fun i hi hi2 => by omega

/-! ## Removing and fixing -/

def Fits (compare : α → α → ℤ) (q : Queue α) (idx : ℕ) : Prop :=
  0 < idx → q.Le compare (q.root ((idx + 1) / 2)) (q.root q.elements)

omit hc in
/-- The last element in the place of another one. -/
theorem contents_eq_cons (hidx : idx < q.elements) :
    q.contents = q.root (idx + 1) ::ₘ contents { q with
      root := update q.root (idx + 1) (q.root q.elements), elements := q.elements - 1 } := by
  obtain ⟨n, hn⟩ : ∃ n, q.elements = n + 1 := ⟨q.elements - 1, by omega⟩
  have hmove := bag_move (f := q.root) (s := Finset.Icc 1 (n + 1)) (i := idx + 1) (j := n + 1)
    (x := q.root (idx + 1)) (by rw [Finset.mem_Icc]; omega) (by rw [Finset.mem_Icc]; omega)
  rw [update_eq_self, Icc_succ, bag_update_insert (by simp)] at hmove
  rw [contents, contents, hn, Icc_succ, ← hmove]
  rfl

theorem queueRemove_spec (hheap : q.IsHeap compare) (hidx : idx < q.elements) :
    ∃ q', q.queueRemove compare idx = some (q', q.root (idx + 1)) ∧ q'.maxAtTop = q.maxAtTop ∧
      (q'.IsHeap compare ↔ q.Fits compare idx) ∧
      q.contents = q.root (idx + 1) ::ₘ q'.contents := by
  obtain ⟨n, hn⟩ : ∃ n, q.elements = n + 1 := ⟨q.elements - 1, by omega⟩
  have hpred : q.elements - 1 = n := by omega
  have hsmall : HeapFrom (q.Le compare) 1 n q.root := fun i hi => hheap i (by omega)
  have hhole := hsmall.hole (x := q.root q.elements) (le_trans' hc) idx.succ_pos
  set q₁ : Queue α := ⟨update q.root (idx + 1) (q.root q.elements), n, q.maxElements,
    q.maxAtTop⟩ with hq₁
  obtain ⟨root', heq, hbag, hfits, hsame⟩ := downheap_spec (q := q₁) hc one_pos idx.succ_pos hhole
  have hup : q₁.root ((idx + 1) / 2) = q.root ((idx + 1) / 2) := update_of_ne (by omega) ..
  have hat : q₁.root (idx + 1) = q.root q.elements := update_self ..
  rw [hup, hat] at hfits hsame
  refine ⟨⟨root', n, q.maxElements, q.maxAtTop⟩, ?_, rfl,
    ⟨fun hheap' hpos => ?_, fun hfit => ?_⟩, ?_⟩
  · rw [queueRemove, hpred, heq]
    rfl
  · intro hlt
    obtain rfl := hsame (by omega) (not_not.mpr hlt)
    by_cases hlast : idx + 1 ≤ n
    · have hedge := hheap' (idx + 1) hlast (by omega)
      rw [hup, hat] at hedge
      exact hedge hlt
    · have hedge := hheap (idx + 1) (by omega) (by omega)
      rw [show idx + 1 = q.elements by omega] at hedge hlt
      exact hedge hlt
  · exact hfits fun _ hle => hfit (by omega)
  · rw [contents_eq_cons hidx, hpred]
    exact congrArg _ hbag.symm

theorem queueReplaced_spec (hheap : q.IsHeap compare) (hpos : 0 < q.elements) (x : α) :
    ∃ q', queueReplaced compare { q with root := update q.root 1 x } = some q' ∧
      q'.maxAtTop = q.maxAtTop ∧ q'.IsHeap compare ∧
      q.queueTop ::ₘ q'.contents = x ::ₘ q.contents := by
  have hhole := HeapFrom.hole (x := x) (le_trans' hc) hheap one_pos
  obtain ⟨root', heq, hbag, hfits, -⟩ :=
    downheap_spec (q := { q with root := update q.root 1 x }) hc one_pos le_rfl hhole
  refine ⟨{ q with root := root' }, heq, rfl, hfits fun _ hle => by omega, ?_⟩
  obtain ⟨s, hs, hmem⟩ : ∃ s, Finset.Icc 1 q.elements = insert 1 s ∧ 1 ∉ s :=
    ⟨(Finset.Icc 1 q.elements).erase 1, by rw [Finset.insert_erase]; simp; omega, by simp⟩
  rw [contents, hbag, contents, contents, hs, bag_update_insert hmem, bag_insert hmem]
  exact Multiset.cons_swap ..

theorem fixLoop_spec {i : ℕ} (hheap : HeapFrom (q.Le compare) (i + 1) q.elements q.root) :
    ∃ q', q.fixLoop compare i = some q' ∧ q'.maxAtTop = q.maxAtTop ∧ q'.IsHeap compare ∧
      q'.contents = q.contents := by
  induction i generalizing q with
  | zero => exact ⟨q, rfl, rfl, hheap, rfl⟩
  | succ i ih =>
    have hhole : HeapHole (q.Le compare) (i + 1) q.elements (i + 1) q.root :=
      ⟨fun j hj hbj _ hne => hheap j hj (by omega), fun j _ _ hle => by omega⟩
    obtain ⟨root', heq, hbag, hfits, -⟩ := downheap_spec hc i.succ_pos le_rfl hhole
    obtain ⟨q', heq', hmax, hheap', hcontents⟩ := ih (q := { q with root := root' }) hc
      (hfits fun _ hle => by omega)
    refine ⟨q', ?_, hmax, hheap', hcontents.trans hbag⟩
    rw [fixLoop, heq]
    exact heq'

theorem queueFix_spec : ∃ q', q.queueFix compare = some q' ∧ q'.maxAtTop = q.maxAtTop ∧
    q'.IsHeap compare ∧ q'.contents = q.contents :=
  fixLoop_spec hc fun i hi hle => by omega

end

/-! ## Runs of calls -/

theorem IsHeap.top_le (hc : TotalCmp (q.cmp compare)) (hheap : q.IsHeap compare)
    (hx : x ∈ q.contents) : ¬ q.cmp compare x q.queueTop < 0 := by
  obtain ⟨i, hi, rfl⟩ := mem_bag.mp hx
  have hmem : 1 ≤ i ∧ i ≤ q.elements := Finset.mem_Icc.mp hi
  refine HeapFrom.top_le (fun a => ?_) (le_trans' hc) hheap hmem.1 hmem.2
  rw [Le, hc.self]
  exact lt_irrefl 0

/-- What a call does to the contents; `queue_remove` gives the element of the position. -/
def Answers (compare : α → α → ℤ) (q q' : Queue α) : Op α → Prop
  | .insert x => q'.contents = x ::ₘ q.contents
  | .remove idx => q.queueRemove compare idx = some (q', q.root (idx + 1)) ∧
      q.contents = q.root (idx + 1) ::ₘ q'.contents
  | .replaced x => q.queueTop ::ₘ q'.contents = x ::ₘ q.contents
  | .fix root => q'.contents = bag root (Finset.Icc 1 q.elements)

section

variable (compare : α → α → ℤ) (start : Queue α) (ops : List (Op α))

/-- All calls are right: each one ends, does what it should do to the contents, and leaves the
elements in order with the least one at the top. -/
def Right : Prop :=
  ∀ before op after, ops = before ++ op :: after → ∀ q, (system compare).run start before = some q →
    q.Enabled op → ∃ q', q.perform compare op = some q' ∧ Answers compare q q' op ∧
      q'.IsHeap compare ∧ ∀ x ∈ q'.contents, ¬ q'.cmp compare x q'.queueTop < 0

def AllFit : Prop :=
  ∀ before idx after, ops = before ++ .remove idx :: after →
    ∀ q, (system compare).run start before = some q → idx < q.elements → q.Fits compare idx

end

theorem perform_spec (hcmp : TotalCmp compare) (hq : q.Signed) (hheap : q.IsHeap compare)
    {op : Op α} (hop : q.Enabled op) :
    ∃ q', q.perform compare op = some q' ∧ q'.Signed ∧ Answers compare q q' op ∧
      (q'.IsHeap compare ↔ ∀ idx, op = .remove idx → q.Fits compare idx) := by
  have hc : TotalCmp (q.cmp compare) := hcmp.mul_sign hq
  cases op with
  | insert x =>
    obtain ⟨q', heq, hmax, hheap', hcontents⟩ := queueInsert_spec hc hheap x
    exact ⟨q', heq, by rwa [Signed, hmax], hcontents, iff_of_true hheap' (by simp)⟩
  | remove idx =>
    obtain ⟨q', heq, hmax, hiff, hcontents⟩ := queueRemove_spec hc hheap hop
    refine ⟨q', by simp [perform, heq], by rwa [Signed, hmax], ⟨heq, hcontents⟩, ?_⟩
    rw [hiff]
    exact ⟨fun hfits j hj => by cases hj; exact hfits, fun hfits => hfits idx rfl⟩
  | replaced x =>
    obtain ⟨q', heq, hmax, hheap', hcontents⟩ := queueReplaced_spec hc hheap hop x
    exact ⟨q', heq, by rwa [Signed, hmax], hcontents, iff_of_true hheap' (by simp)⟩
  | fix root =>
    obtain ⟨q', heq, hmax, hheap', hcontents⟩ := queueFix_spec (q := { q with root := root }) hc
    exact ⟨q', heq, by rwa [Signed, hmax], hcontents, iff_of_true hheap' (by simp)⟩

theorem step_eq {op : Op α} {q' : Queue α} (h : (system compare).step q op = some q') :
    q.Enabled op ∧ q.perform compare op = some q' := by
  simpa [system] using h

theorem isHeap_of_run (hcmp : TotalCmp compare) {start : Queue α}
    (hstart : (system compare).init start) (ops : List (Op α))
    (hkeep : ∀ before op after, ops = before ++ op :: after → ∀ q q',
      (system compare).run start before = some q → q.IsHeap compare → q.Signed → q.Enabled op →
      q.perform compare op = some q' → q'.IsHeap compare) {before after : List (Op α)}
    (hops : ops = before ++ after) (hrun : (system compare).run start before = some q) :
    q.IsHeap compare ∧ q.Signed := by
  induction before using List.reverseRecOn generalizing q after with
  | nil =>
    obtain ⟨root, maxElements, maxAtTop, rfl⟩ := hstart
    obtain rfl := Option.some.inj hrun
    refine ⟨fun i hi hpos => ?_, ?_⟩
    · have : i ≤ 0 := hi
      omega
    · cases maxAtTop
      · exact .inl rfl
      · exact .inr rfl
  | append_singleton before op ih =>
    rw [System.run_append, Option.bind_eq_some_iff] at hrun
    obtain ⟨q₀, hrun₀, hlast⟩ := hrun
    rw [List.append_assoc] at hops
    have hstep : (system compare).step q₀ op = some q := by
      rw [System.run_cons, Option.bind_eq_some_iff] at hlast
      obtain ⟨q₁, hstep, hnil⟩ := hlast
      rwa [← Option.some.inj hnil]
    obtain ⟨hop, hperform⟩ := step_eq hstep
    obtain ⟨hheap, hsigned⟩ := ih hops hrun₀
    obtain ⟨q', heq, hsigned', -⟩ := perform_spec hcmp hsigned hheap hop
    obtain rfl := Option.some.inj (hperform.symm.trans heq)
    exact ⟨hkeep before op after hops q₀ q hrun₀ hheap hsigned hop hperform, hsigned'⟩

/-- A priority queue is right as long as the last element fits wherever one is removed. -/
theorem right_iff_allFit (hcmp : TotalCmp compare) {start : Queue α}
    (hstart : (system compare).init start) (ops : List (Op α)) :
    Right compare start ops ↔ AllFit compare start ops := by
  constructor
  · intro hright before idx after hops q hrun hidx
    have hheap := isHeap_of_run hcmp hstart ops
      (fun before op after hops q q' hrun _ _ hop hperform => by
        obtain ⟨q₁, heq, -, hheap, -⟩ := hright before op after hops q hrun hop
        obtain rfl := Option.some.inj (hperform.symm.trans heq)
        exact hheap) hops hrun
    obtain ⟨q', heq, -, -, hiff⟩ := perform_spec hcmp hheap.2 hheap.1
      (show q.Enabled (.remove idx) from hidx)
    obtain ⟨q₁, heq₁, -, hheap₁, -⟩ := hright before (.remove idx) after hops q hrun hidx
    obtain rfl := Option.some.inj (heq₁.symm.trans heq)
    exact hiff.mp hheap₁ idx rfl
  · intro hfits before op after hops q hrun hop
    have hheap := isHeap_of_run hcmp hstart ops
      (fun before op after hops q q' hrun hheap hsigned hop hperform => by
        obtain ⟨q₁, heq, -, -, hiff⟩ := perform_spec hcmp hsigned hheap hop
        obtain rfl := Option.some.inj (hperform.symm.trans heq)
        refine hiff.mpr fun idx hidx => ?_
        subst hidx
        exact hfits before idx after hops q hrun hop) hops hrun
    obtain ⟨q', heq, hsigned, hanswers, hiff⟩ := perform_spec hcmp hheap.2 hheap.1 hop
    have hheap' : q'.IsHeap compare := by
      refine hiff.mpr fun idx hidx => ?_
      subst hidx
      exact hfits before idx after hops q hrun hop
    exact ⟨q', heq, hanswers, hheap', fun x hx => hheap'.top_le (hcmp.mul_sign hsigned) hx⟩

theorem totalCmp_sub : TotalCmp fun a b : ℤ => a - b :=
  ⟨fun a b => by omega, fun a b c _ _ => by omega⟩

/-- The theorem for numbers with the greatest one at the top. -/
theorem right_iff_allFit_max :
    Right (fun a b : ℤ => a - b) (initQueue (fun _ => 0) 8 true)
        [.insert 3, .insert 5, .remove 1, .replaced 4] ↔
      AllFit (fun a b : ℤ => a - b) (initQueue (fun _ => 0) 8 true)
        [.insert 3, .insert 5, .remove 1, .replaced 4] :=
  right_iff_allFit totalCmp_sub ⟨_, _, _, rfl⟩ _

/-- The last element comes from another branch and is less than its new parent. -/
theorem queue_remove_breaks : ∃ q, (system fun a b : ℤ => a - b).Reachable q ∧
    ¬ q.IsHeap fun a b : ℤ => a - b := by
  have hstart : (system fun a b : ℤ => a - b).Reachable (initQueue (fun _ => 0) 8 false) :=
    .start ⟨_, _, _, rfl⟩
  obtain ⟨q, hq, hbad⟩ := hstart.exists_of_run
    [.insert 1, .insert 10, .insert 2, .insert 11, .insert 12, .insert 3, .remove 3]
    (fun q => decide (¬ q.IsHeap fun a b : ℤ => a - b)) (by decide +kernel)
  exact ⟨q, hq, of_decide_eq_true hbad⟩

end MySQL.Mysys.Queue
