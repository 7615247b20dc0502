import MySQL.Mysys.QueueOrder

/-!
# Recalculation of the event queue

The comparison of events with the status DISABLED is not the one of an order.  What `_downheap`
does with any comparison is to move elements up along one path, so a disabled event never goes
down; and where disabled events follow the others, the others are a queue of their own.
-/

namespace MySQL.Mysys.Queue

open Lib Function

/-! ## Fixing with any comparison -/

section Any

variable {α : Type*} {compare : α → α → ℤ} {q : Queue α} {root root₀ : ℕ → α}
  {idx start fuel k h : ℕ} {x : α}

/-- From `start` to the hole `h` every element has been moved up by one place, and nothing else has
been changed. -/
structure Pulled (root₀ : ℕ → α) (start : ℕ) (root : ℕ → α) (h : ℕ) : Prop where
  off : ∀ j, (∀ i, h / 2 ^ i ≠ j) → root j = root₀ j
  path : ∀ i, start < h / 2 ^ i → root (h / 2 ^ (i + 1)) = root₀ (h / 2 ^ i)
  above : ∀ j < start, root j = root₀ j

theorem div_two_pow (k i : ℕ) : k / 2 / 2 ^ i = k / 2 ^ (i + 1) := by
  rw [Nat.div_div_eq_div_mul, ← Nat.pow_succ']

namespace Pulled

theorem refl (root : ℕ → α) (start : ℕ) : Pulled root start root start :=
  ⟨fun _ _ => rfl, fun _ hi => absurd hi (Nat.not_lt.mpr (Nat.div_le_self ..)), fun _ _ => rfl⟩

theorem off_of_lt (hp : Pulled root₀ start root h) {j : ℕ} (hj : h < j) : root j = root₀ j :=
  hp.off j fun _ => (Nat.lt_of_le_of_lt (Nat.div_le_self ..) hj).ne

theorem sink (hp : Pulled root₀ start root h) (hstart : start ≤ h) (hpos : 1 ≤ h)
    (hk : k / 2 = h) : Pulled root₀ start (update root h (root k)) k := by
  refine ⟨fun j hj => ?_, fun i hi => ?_, fun j hj => ?_⟩
  · have hjh : j ≠ h := fun heq => hj 1 (by omega)
    rw [update_of_ne hjh]
    exact hp.off j fun i => by rw [← hk, div_two_pow]; exact hj (i + 1)
  · rw [← div_two_pow k, hk]
    cases i with
    | zero =>
      rw [pow_zero, Nat.div_one, Nat.div_one, update_self]
      exact hp.off_of_lt (by omega)
    | succ i =>
      rw [← div_two_pow k, hk] at hi ⊢
      have hlt : h / 2 ^ (i + 1) < h := Nat.div_lt_self hpos (Nat.one_lt_two_pow i.succ_ne_zero)
      rw [update_of_ne hlt.ne]
      exact hp.path i hi
  · rw [update_of_ne (by omega)]
    exact hp.above j hj

/-- On the way back the elements get to their old places again. -/
theorem climb (hp : Pulled root₀ start root k) (hstart : start < k / 2) :
    Pulled root₀ start (update root k (root (k / 2))) (k / 2) := by
  refine ⟨fun j hj => ?_, fun i hi => ?_, fun j hj => ?_⟩
  · by_cases hjk : j = k
    · have hpath := hp.path 0 (by rw [pow_zero]; omega)
      rw [hjk, update_self]
      simpa using hpath
    · rw [update_of_ne hjk]
      refine hp.off j fun i => ?_
      cases i with
      | zero => simpa using Ne.symm hjk
      | succ i => rw [← div_two_pow]; exact hj i
  · rw [div_two_pow] at hi
    rw [div_two_pow, div_two_pow]
    have hle : k / 2 ^ (i + 1 + 1) ≤ k / 2 := by
      rw [← div_two_pow]
      exact Nat.div_le_self ..
    rw [update_of_ne (by omega)]
    exact hp.path (i + 1) hi
  · rw [update_of_ne (by omega)]
    exact hp.above j hj

end Pulled

theorem nextIndex_any (compare : α → α → ℤ) (root : ℕ → α) (hhalf : idx ≤ q.elements / 2) :
    q.nextIndex compare root idx / 2 = idx ∧ q.nextIndex compare root idx ≤ q.elements := by
  unfold nextIndex
  split <;> omega

theorem downLoop_any (compare : α → α → ℤ) (x : α) (first : Bool)
    (hfuel : q.elements < fuel + h) (hstart : 1 ≤ start)
    (hh : start ≤ h ∧ h ≤ q.elements) (hp : Pulled root₀ start root h) :
    ∃ root' h' r, q.downLoop compare x fuel first root h = some r ∧
      (r = .inl (update root' h' x) ∨ r = .inr (root', h')) ∧ (start ≤ h' ∧ h' ≤ q.elements) ∧
      Pulled root₀ start root' h' ∧
      bag (update root' h' x) (Finset.Icc 1 q.elements) =
        bag (update root h x) (Finset.Icc 1 q.elements) := by
  induction fuel generalizing root h first with
  | zero => omega
  | succ fuel ih =>
    rw [downLoop]
    split
    · next hhalf =>
      obtain ⟨hnext, hle⟩ := nextIndex_any compare root hhalf
      dsimp only
      split
      · exact ⟨root, h, _, rfl, .inl rfl, hh, hp, rfl⟩
      · obtain ⟨root', h', r, heq, hr, hh', hp', hbag⟩ := ih false (by omega) (by omega)
          (hp.sink hh.1 (by omega) hnext)
        refine ⟨root', h', r, heq, hr, hh', hp', hbag.trans (bag_move ?_ ?_)⟩ <;>
          rw [Finset.mem_Icc] <;> omega
    · exact ⟨root, h, _, rfl, .inr rfl, hh, hp, rfl⟩

theorem upLoop_any (compare : α → α → ℤ) (x : α) (hfuel : h < fuel) (hstart : 1 ≤ start)
    (hh : start ≤ h ∧ h ≤ q.elements) (hp : Pulled root₀ start root h) :
    ∃ root' h', q.upLoop compare x start fuel root h = some (update root' h' x) ∧
      (start ≤ h' ∧ h' ≤ q.elements) ∧ Pulled root₀ start root' h' ∧
      bag (update root' h' x) (Finset.Icc 1 q.elements) =
        bag (update root h x) (Finset.Icc 1 q.elements) := by
  induction fuel generalizing root h with
  | zero => omega
  | succ fuel ih =>
    rw [upLoop]
    split
    · next hlt =>
      split
      · exact ⟨root, h, rfl, hh, hp, rfl⟩
      · obtain ⟨root', h', heq, hh', hp', hbag⟩ := ih (by omega) (by omega) (hp.climb hlt)
        refine ⟨root', h', heq, hh', hp', hbag.trans (bag_move ?_ ?_)⟩ <;>
          rw [Finset.mem_Icc] <;> omega
    · exact ⟨root, h, rfl, hh, hp, rfl⟩

theorem downheap_any (compare : α → α → ℤ) (hidx : 1 ≤ idx ∧ idx ≤ q.elements) :
    ∃ root' h, q.downheap compare idx = some { q with root := update root' h (q.root idx) } ∧
      (idx ≤ h ∧ h ≤ q.elements) ∧ Pulled q.root idx root' h ∧
      bag (update root' h (q.root idx)) (Finset.Icc 1 q.elements) = q.contents := by
  have hfuel : q.elements < q.elements + 1 + idx := by omega
  obtain ⟨root', h, r, hdown, hr, hh, hp, hbag⟩ := downLoop_any compare (q.root idx) true hfuel
    hidx.1 ⟨le_rfl, hidx.2⟩ (.refl q.root idx)
  rw [update_eq_self] at hbag
  rw [downheap, hdown]
  rcases hr with rfl | rfl
  · exact ⟨root', h, rfl, hh, hp, hbag⟩
  · obtain ⟨root'', h', hup, hh', hp', hbag'⟩ :=
      upLoop_any compare (q.root idx) (Nat.lt_succ_self h) hidx.1 hh hp
    exact ⟨root'', h', by simp [hup], hh', hp', hbag'.trans hbag⟩

theorem fixLoop_any (compare : α → α → ℤ) {i : ℕ} (hi : i ≤ q.elements) :
    ∃ root', q.fixLoop compare i = some { q with root := root' } ∧
      bag root' (Finset.Icc 1 q.elements) = q.contents ∧
      ∀ j, q.elements < j → root' j = q.root j := by
  induction i generalizing q with
  | zero => exact ⟨q.root, rfl, rfl, fun _ _ => rfl⟩
  | succ i ih =>
    obtain ⟨root', h, heq, hh, hp, hbag⟩ := downheap_any compare ⟨Nat.succ_pos i, hi⟩
    obtain ⟨root'', hfix, hbag', hframe⟩ :=
      ih (q := { q with root := update root' h (q.root (i + 1)) }) (Nat.le_of_succ_le hi)
    refine ⟨root'', ?_, hbag'.trans hbag, fun j hj => (hframe j hj).trans ?_⟩
    · rw [fixLoop, heq]
      exact hfix
    · have hlt : h < j := hh.2.trans_lt hj
      exact (update_of_ne hlt.ne' ..).trans (hp.off_of_lt hlt)

/-- An element that does not come after the child it is compared with stays where it is. -/
theorem downheap_stay (hstay : idx ≤ q.elements / 2 →
    0 ≤ q.cmp compare (q.root (q.nextIndex compare q.root idx)) (q.root idx)) :
    q.downheap compare idx = some q := by
  rw [downheap, downLoop]
  dsimp only
  split
  · next hhalf => rw [if_pos ⟨rfl, hstay hhalf⟩, Option.bind_some, update_eq_self]
  · simp only [Option.bind_some, upLoop, if_neg (show ¬ idx < idx / 2 by omega), update_eq_self,
      Option.map_some]

/-- The way back depends on the elements above the hole only. -/
theorem upLoop_congr {p : Queue α} {compare' : α → α → ℤ} {root₂ : ℕ → α} {fuel₂ : ℕ}
    (hcmp : ∀ j, start < j → j < h → q.cmp compare (root j) x = p.cmp compare' (root j) x)
    (hroot : ∀ j, j ≠ h → root₂ j = root j) (hfuel : h < fuel) (hfuel₂ : h < fuel₂) :
    q.upLoop compare x start fuel root h = p.upLoop compare' x start fuel₂ root₂ h := by
  induction fuel generalizing h root root₂ fuel₂ with
  | zero => omega
  | succ fuel ih =>
    obtain ⟨fuel₂, rfl⟩ : ∃ f, fuel₂ = f + 1 := ⟨fuel₂ - 1, by omega⟩
    have hsame (y : α) : update root₂ h y = update root h y := by
      funext j
      by_cases hj : j = h
      · rw [hj, update_self, update_self]
      · rw [update_of_ne hj, update_of_ne hj, hroot j hj]
    simp only [upLoop]
    by_cases hlt : start < h / 2
    · rw [if_pos hlt, if_pos hlt, hroot _ (by omega), hsame, hsame, hcmp _ hlt (by omega)]
      split
      · rfl
      · refine ih (fun j hj hjh => ?_) (fun _ _ => rfl) (by omega) (by omega)
        rw [update_of_ne (by omega)]
        exact hcmp j hj (by omega)
    · rw [if_neg hlt, if_neg hlt, hsame]

end Any

/-- Nothing is moved when the last element is removed. -/
theorem queueRemove_last {α : Type*} {compare : α → α → ℤ} {q : Queue α} {i : ℕ}
    (hi : q.elements = i + 1) :
    q.queueRemove compare i = some ({ q with elements := i }, q.root (i + 1)) := by
  have hhalf : ¬ i + 1 ≤ i / 2 := by omega
  have hup : ¬ i + 1 < (i + 1) / 2 := by omega
  simp [queueRemove, downheap, downLoop, upLoop, hi, hhalf, hup]

/-- What is removed is the element of the position, and nothing before it is moved, whatever the
comparison is. -/
theorem queueRemove_any {α : Type*} (compare : α → α → ℤ) {q : Queue α} {i : ℕ}
    (hi : i < q.elements) :
    ∃ q', q.queueRemove compare i = some (q', q.root (i + 1)) ∧ q'.elements = q.elements - 1 ∧
      (∀ j ≤ i, q'.root j = q.root j) ∧ q.contents = q.root (i + 1) ::ₘ q'.contents := by
  rcases (Nat.succ_le_of_lt hi).eq_or_lt with hlast | hlt
  · refine ⟨_, queueRemove_last hlast.symm, by simp [← hlast], fun _ _ => rfl, ?_⟩
    rw [contents_eq_cons hi, ← hlast, update_eq_self]
    rfl
  · obtain ⟨root', h, heq, hh, hp, hbag⟩ := downheap_any compare
      (q := ⟨update q.root (i + 1) (q.root q.elements), q.elements - 1, q.maxElements, q.maxAtTop⟩)
      ⟨Nat.succ_pos i, Nat.le_sub_one_of_lt hlt⟩
    refine ⟨_, by rw [queueRemove, heq]; rfl, rfl, fun j hj => ?_, ?_⟩
    · exact (update_of_ne (by omega) ..).trans
        ((hp.above j (by omega)).trans (update_of_ne (by omega) ..))
    · rw [contents_eq_cons hi]
      exact congrArg _ hbag.symm

end MySQL.Mysys.Queue

namespace MySQL.Sql.Events

open Lib Mysys Function

inductive EventStatus where
  | enabled
  | disabled
  | slavesideDisabled
  deriving DecidableEq

/-- An `Event_queue_element`; the number stands for the object. -/
structure EventElement where
  id : ℕ
  status : EventStatus
  executeAt : ℤ
  deriving DecidableEq

def eventQueueElementCompareQ (left right : EventElement) : ℤ :=
  if left.status = .disabled then if right.status ≠ .disabled then 1 else 0
  else if right.status = .disabled then 1
  else if left.executeAt < right.executeAt then -1
  else if left.executeAt > right.executeAt then 1 else 0

/-- The queue of `n` events, with the first one at the top. -/
def eventQueue (root : ℕ → EventElement) (n maxElements : ℕ) : Queue EventElement :=
  ⟨root, n, maxElements, 1⟩

/-- The loop that removes events from the end of the array. -/
def removeLoop : ℕ → Queue EventElement → Option (Queue EventElement)
  | 0, q => some q
  | i + 1, q =>
    if (q.root (i + 1)).status ≠ .disabled then some q
    else (q.queueRemove eventQueueElementCompareQ i).bind fun r => removeLoop i r.1

/-- `recalculate_activation_times`; `next` is what `compute_next_execution_time` makes of an
event. -/
def recalculateActivationTimes (next : EventElement → EventElement) (q : Queue EventElement) :
    Option (Queue EventElement) :=
  ({ q with root := fun i => next (q.root i) }.queueFix eventQueueElementCompareQ).bind fun q =>
    removeLoop q.elements q

/-- What should be left of the events. -/
def Recalculated (events : Multiset EventElement) (q : Queue EventElement) : Prop :=
  q.contents = events.filter (·.status ≠ .disabled) ∧
    (0 < q.elements → ∀ x ∈ q.contents, q.queueTop.executeAt ≤ x.executeAt)

/-- The events from `m` on are disabled. -/
def DisabledFrom (root : ℕ → EventElement) (n m : ℕ) : Prop :=
  ∀ j, m < j → j ≤ n → (root j).status = .disabled

def EnabledUpTo (root : ℕ → EventElement) (m : ℕ) : Prop :=
  ∀ j, 1 ≤ j → j ≤ m → (root j).status ≠ .disabled

/-- The disabled events follow the others.  If one stands beside the last one of the others, this is
not the only earliest one: its parent is never compared with it. -/
def InOrder (root : ℕ → EventElement) (n : ℕ) : Prop :=
  ∃ m ≤ n, EnabledUpTo root m ∧ DisabledFrom root n m ∧
    (m % 2 = 0 → 0 < m → m < n →
      ∃ i, 1 ≤ i ∧ i < m ∧ (root i).executeAt ≤ (root m).executeAt)

variable {q : Queue EventElement} {h i m n start fuel : ℕ} {root : ℕ → EventElement}
  {x left right : EventElement}

theorem mem_contents {α : Type*} {q : Queue α} {x : α} :
    x ∈ q.contents ↔ ∃ i ≤ q.elements, 1 ≤ i ∧ q.root i = x := by
  rw [Queue.contents, mem_bag]
  simp only [Finset.mem_Icc, and_comm, and_assoc]

theorem exists_of_bag_eq {root' : ℕ → EventElement}
    (hbag : bag root' (Finset.Icc 1 n) = bag root (Finset.Icc 1 n)) (hpos : 1 ≤ i) (hi : i ≤ n) :
    ∃ k, 1 ≤ k ∧ k ≤ n ∧ root k = root' i := by
  have hmem : root' i ∈ bag root' (Finset.Icc 1 n) :=
    mem_bag.mpr ⟨i, Finset.mem_Icc.mpr ⟨hpos, hi⟩, rfl⟩
  rw [hbag] at hmem
  obtain ⟨k, hk, hroot⟩ := mem_bag.mp hmem
  rw [Finset.mem_Icc] at hk
  exact ⟨k, hk.1, hk.2, hroot⟩

/-! ## The comparison -/

/-- Events that are not disabled are compared by their times. -/
def compareTime (left right : EventElement) : ℤ :=
  if left.executeAt < right.executeAt then -1
  else if left.executeAt > right.executeAt then 1 else 0

theorem totalCmp_compareTime : TotalCmp compareTime := by
  refine ⟨fun a b => ?_, fun a b c hab hbc => ?_⟩ <;> unfold compareTime at * <;> split_ifs at * <;>
    omega

section

variable (hsign : q.maxAtTop = 1)
include hsign

theorem cmp_disabled (h : left.status = .disabled ∨ right.status = .disabled) :
    0 ≤ q.cmp eventQueueElementCompareQ left right := by
  rw [Queue.cmp, hsign, mul_one, eventQueueElementCompareQ]
  split_ifs <;> simp_all

omit hsign in
theorem cmp_enabled (hleft : left.status ≠ .disabled) (hright : right.status ≠ .disabled)
    (n : ℕ) : q.cmp eventQueueElementCompareQ left right =
      Queue.cmp compareTime { q with elements := n } left right := by
  rw [Queue.cmp, Queue.cmp, eventQueueElementCompareQ, if_neg hleft, if_neg hright, compareTime]

/-! ## Events before disabled ones -/

omit hsign in
/-- The number of events that `queue_fix` puts in order. -/
def heapSize (n m : ℕ) : ℕ := if m % 2 = 0 ∧ m < n then m - 1 else m

omit hsign in
theorem heapSize_spec (hm : m ≤ n) : heapSize n m ≤ m ∧ m ≤ heapSize n m + 1 ∧
    (heapSize n m % 2 = 0 → heapSize n m = n ∨ m = 0) ∧ (heapSize n m < m → m % 2 = 0 ∧ m < n) := by
  unfold heapSize
  split <;> omega

/-- Below the events in order a disabled one is chosen. -/
theorem nextIndex_disabled (hm : m ≤ q.elements) (htail : DisabledFrom root q.elements m)
    (hhalf : h ≤ q.elements / 2) (hleaf : heapSize q.elements m / 2 < h) :
    (root (q.nextIndex eventQueueElementCompareQ root h)).status = .disabled := by
  obtain ⟨hle, hle', -, hlast⟩ := heapSize_spec hm
  unfold Queue.nextIndex
  split
  · exact htail _ (by omega) (by omega)
  · next hchoice =>
    by_cases hbehind : m < h + h
    · exact htail _ hbehind (by omega)
    · by_contra henabled
      have hright := htail (h + h + 1) (by omega) (by omega)
      refine hchoice ⟨by omega, ?_⟩
      rw [Queue.cmp, hsign, mul_one, eventQueueElementCompareQ, if_neg henabled, if_pos hright]
      exact one_pos

/-- An element that has sunk among the disabled events comes back. -/
theorem downLoop_leaf (hm : m ≤ q.elements) (htail : DisabledFrom root q.elements m)
    (hstart : start < h) (hleaf : heapSize q.elements m / 2 < h) (hh : h ≤ q.elements)
    (hfuel : q.elements < fuel + h) :
    ∃ root' h', q.downLoop eventQueueElementCompareQ x fuel false root h =
        some (.inr (root', h')) ∧
      q.upLoop eventQueueElementCompareQ x start (h' + 1) root' h' =
        q.upLoop eventQueueElementCompareQ x start (h + 1) root h := by
  induction fuel generalizing root h with
  | zero => omega
  | succ fuel ih =>
    rw [Queue.downLoop]
    split
    · next hhalf =>
      obtain ⟨hnext, hle⟩ := Queue.nextIndex_any eventQueueElementCompareQ root hhalf
      have hdisabled := nextIndex_disabled hsign hm htail hhalf hleaf
      generalize q.nextIndex eventQueueElementCompareQ root h = k at hnext hle hdisabled
      have htail' : DisabledFrom (update root h (root k)) q.elements m := by
        intro j hmj hj
        by_cases hjh : j = h
        · rwa [hjh, update_self]
        · rw [update_of_ne hjh]
          exact htail j hmj hj
      obtain ⟨root', h', hdown, hup⟩ := ih htail' (by omega) (by omega) hle (by omega)
      refine ⟨root', h', hdown, hup.trans ?_⟩
      have hback : 0 ≤ q.cmp eventQueueElementCompareQ (root k) x :=
        cmp_disabled hsign (.inl hdisabled)
      simp only [Queue.upLoop, hnext, if_pos hstart, update_self, if_neg (not_lt.mpr hback)]
      refine Queue.upLoop_congr (fun _ _ _ => rfl) (fun j hj => ?_) (by omega) (Nat.lt_succ_self h)
      by_cases hjk : j = k
      · rw [hjk, update_self]
      · rw [update_of_ne hjk, update_of_ne hj]
    · exact ⟨root, h, rfl, rfl⟩

omit hsign in
/-- What follows the first loop of `_downheap`. -/
def finish {α : Type*} (compare : α → α → ℤ) (q : Queue α) (x : α) (start : ℕ) :
    (ℕ → α) ⊕ (ℕ → α) × ℕ → Option (ℕ → α)
  | .inl root => some root
  | .inr (root, hole) => q.upLoop compare x start (hole + 1) root hole

omit hsign in
theorem downheap_eq {α : Type*} (compare : α → α → ℤ) (q : Queue α) (idx : ℕ) :
    q.downheap compare idx =
      ((q.downLoop compare (q.root idx) (q.elements + 1) true q.root idx).bind
        (finish compare q (q.root idx) idx)).map fun root => { q with root := root } := by
  rw [Queue.downheap]
  rcases q.downLoop compare (q.root idx) (q.elements + 1) true q.root idx with _ | _ | _ <;> rfl

/-- An event moves as it would in a queue of the events in order, by the times. -/
theorem downLoop_sim {fuel₂ : ℕ} (first : Bool) (hx : x.status ≠ .disabled) (hm : m ≤ q.elements)
    (hfront : EnabledUpTo root (heapSize q.elements m)) (htail : DisabledFrom root q.elements m)
    (hpos : 1 ≤ start) (hfirst : if first then h = start else start < h)
    (hh : h ≤ heapSize q.elements m) (hfuel : q.elements < fuel + h)
    (hfuel₂ : heapSize q.elements m < fuel₂ + h) :
    (q.downLoop eventQueueElementCompareQ x fuel first root h).bind
        (finish eventQueueElementCompareQ q x start) =
      (Queue.downLoop compareTime { q with elements := heapSize q.elements m } x fuel₂ first root
        h).bind (finish compareTime { q with elements := heapSize q.elements m } x start) := by
  obtain ⟨hle, hle', heven, -⟩ := heapSize_spec hm
  induction fuel₂ generalizing fuel root h first with
  | zero => omega
  | succ fuel₂ ih =>
    have hstart : start ≤ h := by cases first <;> simp at hfirst <;> omega
    by_cases hhalf : h ≤ heapSize q.elements m / 2
    · obtain ⟨fuel, rfl⟩ : ∃ f, fuel = f + 1 := ⟨fuel - 1, by omega⟩
      have hnext : q.nextIndex eventQueueElementCompareQ root h =
          Queue.nextIndex compareTime { q with elements := heapSize q.elements m } root h := by
        unfold Queue.nextIndex
        by_cases hlt : h + h < heapSize q.elements m
        · rw [cmp_enabled (hfront _ (by omega) (by omega)) (hfront _ (by omega) (by omega))
            (heapSize q.elements m)]
          simp only [hlt, show h + h < q.elements by omega]
        · rw [if_neg (by omega), if_neg fun hc => hlt hc.1]
      obtain ⟨hk, hkle⟩ := Queue.nextIndex_any compareTime root
        (q := { q with elements := heapSize q.elements m }) hhalf
      rw [Queue.downLoop, Queue.downLoop, if_pos (by omega), if_pos hhalf, hnext]
      generalize Queue.nextIndex compareTime { q with elements := heapSize q.elements m } root h = k
        at hk hkle ⊢
      have henabled := hfront k (by omega) hkle
      simp only [cmp_enabled henabled hx (heapSize q.elements m)]
      split
      · rfl
      · refine ih false (fun j hj hjle => ?_) (fun j hmj hj => ?_) ?_ hkle ?_ (by omega)
        · by_cases hjh : j = h
          · rwa [hjh, update_self]
          · rw [update_of_ne hjh]
            exact hfront j hj hjle
        · rw [update_of_ne (by omega)]
          exact htail j hmj hj
        · simp only [Bool.false_eq_true, if_false]
          omega
        · omega
    · rw [Queue.downLoop, if_neg hhalf, Option.bind_some, finish]
      cases first with
      | false =>
        simp only [Bool.false_eq_true, if_false] at hfirst
        obtain ⟨root', h', hdown, hup⟩ := downLoop_leaf hsign (x := x) hm htail hfirst (by omega)
          (by omega) hfuel
        rw [hdown, Option.bind_some, finish, hup]
        refine Queue.upLoop_congr (fun j hj hjh => ?_) (fun _ _ => rfl) (Nat.lt_succ_self h)
          (Nat.lt_succ_self h)
        exact cmp_enabled (hfront j (by omega) (by omega)) hx _
      | true =>
        simp only [if_true] at hfirst
        obtain ⟨fuel, rfl⟩ : ∃ f, fuel = f + 1 := ⟨fuel - 1, by omega⟩
        have hup {compare : EventElement → EventElement → ℤ} {q : Queue EventElement} :
            q.upLoop compare x start (h + 1) root h = some (update root h x) := by
          rw [Queue.upLoop, if_neg (by omega)]
        rw [hup, Queue.downLoop]
        split
        · next hhalf' =>
          have hdisabled := nextIndex_disabled hsign hm htail hhalf' (by omega)
          rw [if_pos ⟨rfl, cmp_disabled hsign (.inl hdisabled)⟩]
          rfl
        · exact hup

theorem fixLoop_sim (hm : m ≤ q.elements) (hfront : EnabledUpTo q.root (heapSize q.elements m))
    (htail : DisabledFrom q.root q.elements m) (hi : i ≤ heapSize q.elements m) :
    q.fixLoop eventQueueElementCompareQ i =
      (Queue.fixLoop compareTime i { q with elements := heapSize q.elements m }).map
        fun p => { q with root := p.root } := by
  induction i generalizing q with
  | zero => rfl
  | succ i ih =>
    obtain ⟨root', h, hdown, hh, hp, hbag⟩ := Queue.downheap_any compareTime
      (q := { q with elements := heapSize q.elements m }) ⟨Nat.succ_pos i, hi⟩
    have hfuel {n : ℕ} : n < n + 1 + (i + 1) := by omega
    have hsame := downLoop_sim hsign true (hfront _ i.succ_pos hi) hm hfront htail i.succ_pos
      (show if true then i + 1 = i + 1 else _ from rfl) hi hfuel hfuel
    rw [downheap_eq] at hdown
    obtain ⟨root'', hroot, hdown⟩ := Option.map_eq_some_iff.mp hdown
    obtain rfl : root'' = update root' h (q.root (i + 1)) := congrArg Queue.root hdown
    rw [Queue.fixLoop, Queue.fixLoop, downheap_eq, downheap_eq]
    dsimp only at hroot ⊢
    rw [hsame, hroot]
    refine ih (q := { q with root := update root' h (q.root (i + 1)) }) hsign hm
      (fun j hj hjle => ?_) (fun j hmj hj => ?_) (Nat.le_of_succ_le hi)
    · obtain ⟨k, hkpos, hk, heq⟩ := exists_of_bag_eq hbag hj hjle
      dsimp only at heq ⊢
      rw [← heq]
      exact hfront k hkpos hk
    · have hlt : h < j := (hh.2.trans (heapSize_spec hm).1).trans_lt hmj
      change (update root' h (q.root (i + 1)) j).status = .disabled
      rw [update_of_ne hlt.ne', hp.off_of_lt hlt]
      exact htail j hmj hj

theorem fixLoop_stay (hm : m ≤ q.elements) (htail : DisabledFrom q.root q.elements m)
    (hi : heapSize q.elements m / 2 ≤ i) :
    q.fixLoop eventQueueElementCompareQ i =
      q.fixLoop eventQueueElementCompareQ (heapSize q.elements m / 2) := by
  induction i, hi using Nat.le_induction with
  | base => rfl
  | succ i hi ih =>
    rw [Queue.fixLoop, Queue.downheap_stay fun hhalf => ?_]
    · exact ih
    · exact cmp_disabled hsign
        (.inl (nextIndex_disabled hsign hm htail hhalf (Nat.lt_succ_of_le hi)))

/-- Disabled events do not go down. -/
theorem disabledFrom_of_fixLoop {root' : ℕ → EventElement} (hi : i ≤ q.elements)
    (hfix : q.fixLoop eventQueueElementCompareQ i = some { q with root := root' })
    (htail : DisabledFrom root' q.elements m) : DisabledFrom q.root q.elements m := by
  induction i generalizing q with
  | zero =>
    obtain rfl : q.root = root' := congrArg Queue.root (Option.some.inj hfix)
    exact htail
  | succ i ih =>
    obtain ⟨root₁, h, hdown, hh, hp, -⟩ :=
      Queue.downheap_any eventQueueElementCompareQ ⟨Nat.succ_pos i, hi⟩
    rw [Queue.fixLoop, hdown] at hfix
    have htail₁ := ih (q := { q with root := update root₁ h (q.root (i + 1)) }) hsign
      (Nat.le_of_succ_le hi) hfix htail
    by_cases hx : (q.root (i + 1)).status = .disabled
    · have hstay : q.downheap eventQueueElementCompareQ (i + 1) = some q :=
        Queue.downheap_stay fun _ => cmp_disabled hsign (.inr hx)
      have hroot := congrArg Queue.root (Option.some.inj (hstay.symm.trans hdown))
      rw [hroot]
      exact htail₁
    · have hhm : h ≤ m := by
        by_contra hlt
        have hdisabled : (update root₁ h (q.root (i + 1)) h).status = .disabled :=
          htail₁ h (not_le.mp hlt) hh.2
        rw [update_self] at hdisabled
        exact hx hdisabled
      intro j hmj hj
      have hdisabled : (update root₁ h (q.root (i + 1)) j).status = .disabled := htail₁ j hmj hj
      rwa [update_of_ne (by omega), hp.off_of_lt (by omega)] at hdisabled

end

/-- `queue_fix` puts the events in order, and leaves the others where they are. -/
theorem eventQueue_fix (maxElements : ℕ) (hm : m ≤ n) (hfront : EnabledUpTo root m)
    (htail : DisabledFrom root n m) :
    ∃ root', (eventQueue root n maxElements).queueFix eventQueueElementCompareQ =
        some (eventQueue root' n maxElements) ∧
      bag root' (Finset.Icc 1 (heapSize n m)) = bag root (Finset.Icc 1 (heapSize n m)) ∧
      (∀ j, heapSize n m < j → root' j = root j) ∧
      ∀ j, 1 ≤ j → j ≤ heapSize n m → (root' 1).executeAt ≤ (root' j).executeAt := by
  obtain ⟨hle, -⟩ := heapSize_spec hm
  have hc (root : ℕ → EventElement) :
      TotalCmp ((eventQueue root (heapSize n m) maxElements).cmp compareTime) :=
    totalCmp_compareTime.mul_sign (.inl rfl)
  obtain ⟨root', hfix, hbag, hframe⟩ := Queue.fixLoop_any compareTime
    (q := eventQueue root (heapSize n m) maxElements) (Nat.div_le_self (heapSize n m) 2)
  obtain ⟨p, hfix', -, hheap, -⟩ := Queue.queueFix_spec (hc root)
  obtain rfl : p = eventQueue root' (heapSize n m) maxElements :=
    Option.some.inj (hfix'.symm.trans hfix)
  refine ⟨root', ?_, hbag, hframe, fun j hj hjle => ?_⟩
  · have hhalf : heapSize n m / 2 ≤ n / 2 := Nat.div_le_div_right (hle.trans hm)
    have hstay := fixLoop_stay (q := eventQueue root n maxElements) rfl hm htail hhalf
    have hsim := fixLoop_sim (q := eventQueue root n maxElements) rfl hm
      (fun j hj hjle => hfront j hj (hjle.trans hle)) htail (Nat.div_le_self (heapSize n m) 2)
    exact (hstay.trans hsim).trans (congrArg (Option.map _) hfix)
  · have htop := Queue.IsHeap.top_le (hc root') hheap (mem_contents.mpr ⟨j, hjle, hj, rfl⟩)
    by_contra hlt
    have hneg : compareTime (root' j) (root' 1) = -1 := if_pos (not_le.mp hlt)
    refine htop ?_
    change compareTime (root' j) (root' 1) * 1 < 0
    rw [hneg]
    decide

/-! ## Removing the events at the end -/

theorem removeLoop_spec (hi : q.elements = i) :
    ∃ m ≤ i, removeLoop i q = some { q with elements := m } ∧ DisabledFrom q.root i m ∧
      (0 < m → (q.root m).status ≠ .disabled) ∧
      (Queue.contents { q with elements := m }).filter (·.status ≠ .disabled) =
        q.contents.filter (·.status ≠ .disabled) := by
  induction i generalizing q with
  | zero =>
    have hq : { q with elements := 0 } = q := by rw [← hi]
    exact ⟨0, le_rfl, by rw [hq]; rfl, fun j hlt hj => by omega, fun h => by omega, by rw [hq]⟩
  | succ i ih =>
    rw [removeLoop]
    split
    · next hlast =>
      rw [← hi] at hlast ⊢
      exact ⟨_, le_rfl, rfl, fun j hlt hj => by omega, fun _ => hlast, rfl⟩
    · next hlast =>
      obtain ⟨m, hm, heq, hbehind, hend, hfilter⟩ := ih (q := { q with elements := i }) rfl
      refine ⟨m, Nat.le_succ_of_le hm, ?_, fun j hlt hj => ?_, hend, hfilter.trans ?_⟩
      · rw [Queue.queueRemove_last hi]
        exact heq
      · rcases Nat.le_succ_iff.mp hj with hj | rfl
        · exact hbehind j hlt hj
        · exact not_not.mp hlast
      · have hcons : q.contents = q.root (i + 1) ::ₘ Queue.contents { q with elements := i } := by
          rw [Queue.contents, hi, Queue.Icc_succ, bag_insert (by simp)]
          rfl
        rw [hcons, Multiset.filter_cons, if_neg hlast, zero_add]

theorem enabledUpTo_iff : EnabledUpTo q.root m ↔
    (Queue.contents { q with elements := m }).filter (·.status ≠ .disabled) =
      Queue.contents { q with elements := m } := by
  rw [Multiset.filter_eq_self]
  constructor
  · intro hfront x hx
    obtain ⟨i, hi, hpos, rfl⟩ := mem_contents.mp hx
    exact hfront i hpos hi
  · intro hall i hpos hi
    exact hall _ (mem_contents.mpr ⟨i, hi, hpos, rfl⟩)

/-- As many events are disabled as before, so the others are in front if they are in the end. -/
theorem enabledUpTo_of_bag {root' : ℕ → EventElement}
    (hbag : bag root' (Finset.Icc 1 n) = bag root (Finset.Icc 1 n))
    (hfront : EnabledUpTo root' m) (htail : DisabledFrom root n m) (hm : m ≤ n) :
    EnabledUpTo root m := by
  have hcard (f : ℕ → EventElement) : ((bag f (Finset.Icc 1 n)).filter
      (·.status = .disabled)).card =
        ((Finset.Icc 1 n).filter fun i => (f i).status = .disabled).card := by
    rw [bag, Multiset.filter_map, Multiset.card_map]
    rfl
  have hle : ((Finset.Icc 1 n).filter fun i => (root i).status = .disabled).card ≤
      (Finset.Ioc m n).card := by
    rw [← hcard, ← hbag, hcard]
    refine Finset.card_le_card fun i hi => ?_
    rw [Finset.mem_filter, Finset.mem_Icc] at hi
    rw [Finset.mem_Ioc]
    refine ⟨?_, hi.1.2⟩
    by_contra him
    exact hfront i hi.1.1 (not_lt.mp him) hi.2
  have hsub : Finset.Ioc m n ⊆ (Finset.Icc 1 n).filter fun i => (root i).status = .disabled := by
    intro i hi
    rw [Finset.mem_Ioc] at hi
    rw [Finset.mem_filter, Finset.mem_Icc]
    exact ⟨⟨by omega, hi.2⟩, htail i hi.1 hi.2⟩
  have heq := Finset.eq_of_subset_of_card_le hsub hle
  intro i hpos him hdisabled
  have hmem : i ∈ Finset.Ioc m n := by
    rw [heq, Finset.mem_filter, Finset.mem_Icc]
    exact ⟨⟨hpos, by omega⟩, hdisabled⟩
  rw [Finset.mem_Ioc] at hmem
  omega

/-- `recalculate_activation_times` leaves the events that are not disabled, with an earliest one at
the top, if and only if the array is in order before `queue_fix`. -/
theorem recalculateActivationTimes_iff (next : EventElement → EventElement)
    (root : ℕ → EventElement) (n maxElements : ℕ) :
    ∃ q', recalculateActivationTimes next (eventQueue root n maxElements) = some q' ∧
      (Recalculated ((eventQueue root n maxElements).contents.map next) q' ↔
        InOrder (next ∘ root) n) := by
  have hmap : (eventQueue root n maxElements).contents.map next =
      (eventQueue (next ∘ root) n maxElements).contents := by
    rw [Queue.contents, Queue.contents, bag, Multiset.map_map]
    rfl
  obtain ⟨root', hfix, hbag, -⟩ := Queue.fixLoop_any eventQueueElementCompareQ
    (q := eventQueue (next ∘ root) n maxElements) (Nat.div_le_self n 2)
  obtain ⟨m₁, hm₁, heq, hbehind, hend, hfilter⟩ :=
    removeLoop_spec (q := eventQueue root' n maxElements) rfl
  refine ⟨_, (congrArg (Option.bind · _) hfix).trans heq, ?_⟩
  have hcontents : (eventQueue root' n maxElements).contents =
      (eventQueue (next ∘ root) n maxElements).contents := hbag
  rw [hmap, Recalculated, ← hcontents, ← hfilter, eq_comm, ← enabledUpTo_iff]
  constructor
  · rintro ⟨hfront', htop⟩
    have htail := disabledFrom_of_fixLoop (q := eventQueue (next ∘ root) n maxElements) rfl
      (Nat.div_le_self n 2) hfix hbehind
    have hfront := enabledUpTo_of_bag hbag hfront' htail hm₁
    refine ⟨m₁, hm₁, hfront, htail, fun heven hpos hlt => ?_⟩
    -- the last event has stayed in its place, and the top is one of the others
    obtain ⟨root'', hfix', hbag', hframe, -⟩ :=
      eventQueue_fix (n := n) (m := m₁) maxElements hm₁ hfront htail
    obtain rfl : root'' = root' :=
      congrArg Queue.root (Option.some.inj (hfix'.symm.trans hfix))
    have hsize : heapSize n m₁ = m₁ - 1 := if_pos ⟨heven, hlt⟩
    obtain ⟨i, hi, him, hroot⟩ := exists_of_bag_eq hbag' le_rfl (by omega)
    have hlast : (root'' 1).executeAt ≤ (root'' m₁).executeAt :=
      htop hpos _ (mem_contents.mpr ⟨m₁, le_rfl, hpos, rfl⟩)
    rw [hframe m₁ (by omega), ← hroot] at hlast
    exact ⟨i, hi, by omega, hlast⟩
  · rintro ⟨m, hm, hfront, htail, hlast⟩
    obtain ⟨root'', hfix', hbag', hframe, hheap⟩ :=
      eventQueue_fix maxElements hm hfront htail
    obtain rfl : root'' = root' :=
      congrArg Queue.root (Option.some.inj (hfix'.symm.trans hfix))
    obtain ⟨hle, hle', -, hgap⟩ := heapSize_spec hm
    have hfront' : EnabledUpTo root'' m := by
      intro j hj hjm
      by_cases hsize : j ≤ heapSize n m
      · obtain ⟨k, hk, hkm, hroot⟩ := exists_of_bag_eq hbag' hj hsize
        rw [← hroot]
        exact hfront k hk (hkm.trans hle)
      · rw [hframe j (by omega)]
        exact hfront j hj hjm
    obtain rfl : m₁ = m := by
      rcases lt_trichotomy m₁ m with hlt | rfl | hlt
      · exact absurd (hbehind m hlt hm) (hfront' m (by omega) le_rfl)
      · rfl
      · refine absurd ?_ (hend (by omega))
        change (root'' m₁).status = .disabled
        rw [hframe m₁ (by omega)]
        exact htail m₁ hlt hm₁
    refine ⟨hfront', fun _ x hx => ?_⟩
    obtain ⟨j, hjm, hj, rfl⟩ := mem_contents.mp hx
    change j ≤ m₁ at hjm
    change (root'' 1).executeAt ≤ (root'' j).executeAt
    by_cases hsize : j ≤ heapSize n m₁
    · exact hheap j hj hsize
    · obtain rfl : j = m₁ := by omega
      obtain ⟨heven, hlt⟩ := hgap (by omega)
      obtain ⟨i, hi, him, hearly⟩ := hlast heven hj hlt
      obtain ⟨k, hk, hkm, hroot⟩ := exists_of_bag_eq hbag'.symm hi (show i ≤ heapSize n j by omega)
      have htop := hheap k hk hkm
      rw [hroot] at htop
      rw [hframe j (by omega)]
      exact htop.trans hearly

/-- The first of two events is disabled, and it stays in the queue. -/
theorem recalculateActivationTimes_keeps_disabled :
    (recalculateActivationTimes
      (fun x => if x.id = 1 then { x with status := .disabled } else x)
      (eventQueue (fun i => ⟨i, .enabled, 10 - i⟩) 2 8)).map
        (fun q => (q.elements, q.queueTop.status)) = some (2, .disabled) := by
  decide

end MySQL.Sql.Events
