import Mathlib

/-!
# Lists threaded through memory

A pointer leads to a place, and each place has the pointer to the next one.  A thread is followed up
to a pointer that is left open, so that threads can be cut and joined.
-/

namespace MySQL.Lib

open List Function

variable {α : Type*} {next next' : α → Option α} {h x : Option α} {a b : α} {l m : List α}

/-- The pointer `h` leads through the places of the list to the pointer `x`. -/
def Thread (next : α → Option α) : Option α → List α → Option α → Prop
  | h, [], x => h = x
  | h, a :: l, x => h = some a ∧ Thread next (next a) l x

theorem thread_cons : Thread next h (a :: l) x ↔ h = some a ∧ Thread next (next a) l x := Iff.rfl

theorem thread_append : Thread next h (l ++ m) x ↔ ∃ y, Thread next h l y ∧ Thread next y m x := by
  induction l generalizing h with
  | nil =>
    constructor
    · exact fun hm => ⟨h, rfl, hm⟩
    · rintro ⟨y, rfl, hm⟩
      exact hm
  | cons a l ih =>
    rw [cons_append, thread_cons, ih]
    constructor
    · rintro ⟨rfl, y, hl, hm⟩
      exact ⟨y, ⟨rfl, hl⟩, hm⟩
    · rintro ⟨y, ⟨rfl, hl⟩, hm⟩
      exact ⟨rfl, y, hl, hm⟩

theorem thread_concat : Thread next h (l ++ [a]) x ↔ Thread next h l (some a) ∧ next a = x := by
  rw [thread_append]
  constructor
  · rintro ⟨y, hl, rfl, ha⟩
    exact ⟨hl, ha⟩
  · rintro ⟨hl, ha⟩
    exact ⟨some a, hl, rfl, ha⟩

theorem Thread.congr (ht : Thread next h l x) (heq : ∀ a ∈ l, next' a = next a) :
    Thread next' h l x := by
  induction l generalizing h with
  | nil => exact ht
  | cons a l ih =>
    refine ⟨ht.1, ?_⟩
    rw [heq a mem_cons_self]
    exact ih ht.2 fun b hb => heq b (mem_cons_of_mem a hb)

theorem Thread.unique (hl : Thread next h l none) (hm : Thread next h m none) : l = m := by
  induction l generalizing h m with
  | nil =>
    cases m with
    | nil => rfl
    | cons b m => exact absurd (hl.symm.trans hm.1) (by simp)
  | cons a l ih =>
    cases m with
    | nil => exact absurd (hm.symm.trans hl.1) (by simp)
    | cons b m =>
      obtain rfl : a = b := Option.some.inj (hl.1.symm.trans hm.1)
      rw [ih hl.2 hm.2]

theorem Thread.eq_head? (ht : Thread next h l none) : h = l.head? := by
  cases l with
  | nil => exact ht
  | cons a l => exact ht.1

/-! ## Searching -/

/-- The first place from a pointer on that satisfies `p`.  All others are passed over. -/
def search (next : α → Option α) (p : α → Bool) : ℕ → Option α → Option α
  | 0, h => h
  | _ + 1, none => none
  | fuel + 1, some a => if p a then some a else search next p fuel (next a)

theorem Thread.search_eq {p : α → Bool} {fuel : ℕ} (ht : Thread next h l none)
    (hfuel : l.length ≤ fuel) : search next p fuel h = l.find? p := by
  induction l generalizing h fuel with
  | nil =>
    obtain rfl : h = none := ht
    cases fuel <;> rfl
  | cons a l ih =>
    obtain ⟨fuel, rfl⟩ := Nat.exists_eq_succ_of_ne_zero (Nat.ne_zero_of_lt hfuel)
    obtain ⟨rfl, hrest⟩ := ht
    rw [search, List.find?_cons, ih hrest (Nat.le_of_succ_le_succ hfuel)]
    cases p a <;> rfl

/-! ## Taking a place out -/

/-- Where a pointer is stored: at the start of a thread, or in a place. -/
inductive PtrSlot (α : Type*) where
  | start
  | after (a : α)

def slotBehind : PtrSlot α → List α → PtrSlot α
  | s, [] => s
  | _, b :: l => slotBehind (.after b) l

theorem slotBehind_concat (s : PtrSlot α) (l : List α) (b : α) :
    slotBehind s (l ++ [b]) = .after b := by
  induction l generalizing s with
  | nil => rfl
  | cons c l ih => exact ih (.after c)

section Unlink

variable [DecidableEq α]

def loadPtr (h : Option α) (next : α → Option α) : PtrSlot α → Option α
  | .start => h
  | .after a => next a

def storePtr (h : Option α) (next : α → Option α) (v : Option α) :
    PtrSlot α → Option α × (α → Option α)
  | .start => (v, next)
  | .after a => (h, update next a v)

def unlinkFrom (h : Option α) (next : α → Option α) (a : α) :
    ℕ → PtrSlot α → Option α × (α → Option α)
  | 0, _ => (h, next)
  | fuel + 1, s =>
    match loadPtr h next s with
    | none => (h, next)
    | some b => if b = a then storePtr h next (next a) s else unlinkFrom h next a fuel (.after b)

theorem unlinkFrom_eq {fuel : ℕ} {s : PtrSlot α}
    (ht : Thread next (loadPtr h next s) (l ++ a :: m) none) (ha : a ∉ l)
    (hfuel : l.length < fuel) :
    unlinkFrom h next a fuel s = storePtr h next (next a) (slotBehind s l) := by
  induction l generalizing s fuel with
  | nil =>
    obtain ⟨fuel, rfl⟩ := Nat.exists_eq_succ_of_ne_zero (Nat.ne_zero_of_lt hfuel)
    have hload : loadPtr h next s = some a := ht.1
    rw [unlinkFrom, hload]
    exact if_pos rfl
  | cons b l ih =>
    obtain ⟨fuel, rfl⟩ := Nat.exists_eq_succ_of_ne_zero (Nat.ne_zero_of_lt hfuel)
    have hload : loadPtr h next s = some b := ht.1
    have hba : b ≠ a := fun heq => ha (heq ▸ mem_cons_self)
    rw [unlinkFrom, hload]
    simp only [if_neg hba]
    exact ih ht.2 (fun hmem => ha (mem_cons_of_mem b hmem))
      (Nat.lt_of_succ_lt_succ hfuel)

theorem Thread.unlink {fuel : ℕ} (ht : Thread next h (l ++ a :: m) none)
    (hnodup : (l ++ a :: m).Nodup) (hfuel : l.length < fuel) :
    Thread (unlinkFrom h next a fuel .start).2 (unlinkFrom h next a fuel .start).1 (l ++ m) none ∧
      ∀ b, b ∉ l → (unlinkFrom h next a fuel .start).2 b = next b := by
  have hal : a ∉ l := by
    intro hmem
    exact (nodup_append.1 hnodup).2.2 a hmem a mem_cons_self rfl
  have hpre : Thread next (loadPtr h next .start) (l ++ a :: m) none := ht
  rw [unlinkFrom_eq hpre hal hfuel]
  rcases eq_nil_or_concat' l with rfl | ⟨l, b, rfl⟩
  · exact ⟨ht.2, fun _ _ => rfl⟩
  · rw [slotBehind_concat]
    obtain ⟨y, hl, hm⟩ := thread_append.1 ht
    obtain ⟨hl, hb⟩ := thread_concat.1 hl
    rw [append_assoc] at hnodup
    obtain ⟨hnodup_l, hnodup_m, hdisjoint⟩ := nodup_append.1 hnodup
    have hbl : b ∉ l := fun hmem => hdisjoint b hmem b mem_cons_self rfl
    have hbm : b ∉ m := fun hmem => (nodup_cons.1 hnodup_m).1 (mem_cons_of_mem a hmem)
    refine ⟨thread_append.2 ⟨next a, thread_concat.2 ⟨?_, update_self ..⟩, ?_⟩, ?_⟩
    · exact hl.congr fun c hc => update_of_ne (ne_of_mem_of_not_mem hc hbl) ..
    · exact hm.2.congr fun c hc => update_of_ne (ne_of_mem_of_not_mem hc hbm) ..
    · intro c hc
      refine update_of_ne (fun heq => hc ?_) ..
      rw [heq]
      exact mem_append_right l mem_cons_self

end Unlink

end MySQL.Lib
