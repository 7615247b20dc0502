import MySQL.Sql.EventQueue

/-!
# Dropping events

The events are looked at by their positions in the array, while every one that is removed leaves its
position to another event.
-/

namespace MySQL.Sql.Events

open Lib Mysys

/-- The bytes of a `LEX_STRING`. -/
abbrev LexString := List UInt8

/-- An `Event_queue_element` with its identifier. -/
structure NamedElement extends EventElement where
  dbname : LexString
  name : LexString

def namedCompare (left right : NamedElement) : ℤ :=
  eventQueueElementCompareQ left.toEventElement right.toEventElement

/-- The loop of `drop_matching_events`, with the index of the next event. -/
def dropLoop (comparator : NamedElement → Bool) :
    ℕ → ℕ → Queue NamedElement → Option (Queue NamedElement)
  | 0, i, q => if i < q.elements then none else some q
  | fuel + 1, i, q =>
    if i < q.elements then
      if comparator (q.root (i + 1)) then
        (q.queueRemove namedCompare i).bind fun r => dropLoop comparator fuel i r.1
      else dropLoop comparator fuel (i + 1) q
    else some q

def dropMatchingEvents (pattern : LexString) (comparator : LexString → NamedElement → Bool)
    (q : Queue NamedElement) : Option (Queue NamedElement) :=
  dropLoop (comparator pattern) q.elements 0 q

variable (sortcmp : LexString → LexString → ℤ) (db name : LexString)

/-- `event_basic_identifier_equal`; `sortcmp` is the comparison of strings of the system. -/
def eventBasicIdentifierEqual (b : NamedElement) : Bool :=
  sortcmp name b.name = 0 ∧ sortcmp db b.dbname = 0

/-- The loop of `find_n_remove_event`, with the number of events that are left. -/
def findLoop (equal : NamedElement → Bool) (q : Queue NamedElement) :
    ℕ → ℕ → Option (Queue NamedElement)
  | 0, _ => some q
  | left + 1, i =>
    if equal (q.root (i + 1)) then (q.queueRemove namedCompare i).map Prod.fst
    else findLoop equal q left (i + 1)

def findNRemoveEvent (q : Queue NamedElement) : Option (Queue NamedElement) :=
  findLoop (eventBasicIdentifierEqual sortcmp db name) q q.elements 0

variable {q : Queue NamedElement} {i fuel : ℕ} {comparator : NamedElement → Bool}

/-- The events up to an index do not match. -/
def Passed (comparator : NamedElement → Bool) (q : Queue NamedElement) (i : ℕ) : Prop :=
  ∀ j ≤ i, 1 ≤ j → comparator (q.root j) = false

theorem Passed.succ (h : Passed comparator q i) (hi : ¬ comparator (q.root (i + 1))) :
    Passed comparator q (i + 1) := by
  intro j hj hpos
  rcases hj.eq_or_lt with rfl | hlt
  · exact Bool.eq_false_iff.mpr hi
  · exact h j (by omega) hpos

theorem Passed.all (h : Passed comparator q i) (hi : q.elements ≤ i) {x : NamedElement}
    (hx : x ∈ q.contents) : comparator x = false := by
  obtain ⟨j, hj, hpos, rfl⟩ := mem_contents.mp hx
  exact h j (hj.trans hi) hpos

theorem Passed.filter_contents (h : Passed comparator q i) (hi : q.elements ≤ i) :
    q.contents.filter (comparator · = false) = q.contents :=
  Multiset.filter_eq_self.mpr fun _ hx => h.all hi hx

theorem dropLoop_spec (hfuel : q.elements ≤ fuel + i) (h : Passed comparator q i) :
    ∃ q', dropLoop comparator fuel i q = some q' ∧
      q'.contents = q.contents.filter (comparator · = false) := by
  induction fuel generalizing q i with
  | zero => exact ⟨q, if_neg (by omega), (h.filter_contents (by omega)).symm⟩
  | succ fuel ih =>
    rw [dropLoop]
    split_ifs with hi hmatch
    · obtain ⟨q₁, heq, hnum, hframe, hcons⟩ := Queue.queueRemove_any namedCompare hi
      have hpassed : Passed comparator q₁ i := fun j hj hpos => by
        rw [hframe j hj]
        exact h j hj hpos
      obtain ⟨q', hdrop, hcontents⟩ := ih (by omega) hpassed
      refine ⟨q', ?_, ?_⟩
      · rw [heq]
        exact hdrop
      · rw [hcontents, hcons, Multiset.filter_cons_of_neg _ (by simp [hmatch])]
    · exact ih (by omega) (h.succ hmatch)
    · exact ⟨q, rfl, (h.filter_contents (not_lt.mp hi)).symm⟩

theorem findLoop_spec {left : ℕ} (hleft : i + left = q.elements) (h : Passed comparator q i) :
    ∃ q', findLoop comparator q left i = some q' ∧
      ((∃ x, comparator x ∧ q.contents = x ::ₘ q'.contents) ∨
        (∀ x ∈ q.contents, comparator x = false) ∧ q' = q) := by
  induction left generalizing i with
  | zero => exact ⟨q, rfl, .inr ⟨fun x hx => h.all hleft.ge hx, rfl⟩⟩
  | succ left ih =>
    rw [findLoop]
    split_ifs with hmatch
    · obtain ⟨q', heq, -, -, hcons⟩ :=
        Queue.queueRemove_any namedCompare (show i < q.elements by omega)
      exact ⟨q', by rw [heq]; rfl, .inl ⟨_, hmatch, hcons⟩⟩
    · exact ih (by omega) (h.succ hmatch)

/-- All events that match are dropped and no others, and one event is removed if there is one. -/
theorem events_dropped (q : Queue NamedElement) :
    (∀ pattern comparator, ∃ q', dropMatchingEvents pattern comparator q = some q' ∧
        q'.contents = q.contents.filter (comparator pattern · = false)) ∧
      ∀ sortcmp db name, ∃ q', findNRemoveEvent sortcmp db name q = some q' ∧
        ((∃ x ∈ q.contents, eventBasicIdentifierEqual sortcmp db name x) →
          ∃ x, eventBasicIdentifierEqual sortcmp db name x ∧ q.contents = x ::ₘ q'.contents) ∧
        ((¬ ∃ x ∈ q.contents, eventBasicIdentifierEqual sortcmp db name x) → q' = q) := by
  have hstart (comparator : NamedElement → Bool) : Passed comparator q 0 :=
    fun j hj hpos => by omega
  refine ⟨fun pattern comparator => dropLoop_spec le_rfl (hstart _), fun sortcmp db name => ?_⟩
  obtain ⟨q', heq, ⟨x, hx, hcons⟩ | ⟨hnone, hsame⟩⟩ := findLoop_spec (Nat.zero_add q.elements)
    (hstart (eventBasicIdentifierEqual sortcmp db name))
  · refine ⟨q', heq, fun _ => ⟨x, hx, hcons⟩, fun hno => absurd ⟨x, ?_, hx⟩ hno⟩
    rw [hcons]
    exact Multiset.mem_cons_self ..
  · refine ⟨q', heq, fun ⟨x, hx, hmatch⟩ => ?_, fun _ => hsame⟩
    rw [hnone x hx] at hmatch
    exact absurd hmatch Bool.false_ne_true

end MySQL.Sql.Events
