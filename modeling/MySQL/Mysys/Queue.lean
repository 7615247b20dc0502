import MySQL.Lib.Compare
import MySQL.Lib.Heap
import MySQL.Lib.System

/-!
# Priority queues

The elements stand in an array from position 1 on, each one not before its parent.  `compare` is
the comparison of two elements by their keys.  The loops have fuel; a loop that does not end
within it has no result.
-/

namespace MySQL.Mysys

open Lib Function

/-- `QUEUE`.  Position 0 of the array is only used by the loop of `queue_insert`. -/
structure Queue (α : Type*) where
  root : ℕ → α
  elements : ℕ
  maxElements : ℕ
  maxAtTop : ℤ

namespace Queue

variable {α : Type*} (compare : α → α → ℤ)

/-- `init_queue`, with whatever stands in the new array. -/
def initQueue (root : ℕ → α) (maxElements : ℕ) (maxAtTop : Bool) : Queue α :=
  ⟨root, 0, maxElements, if maxAtTop then -1 else 1⟩

variable (q : Queue α)

def cmp (a b : α) : ℤ := compare a b * q.maxAtTop

def queueTop : α := q.root 1

/-- The loop of `queue_insert`. -/
def insertLoop (q : Queue α) (element : α) : ℕ → (ℕ → α) → ℕ → Option (ℕ → α)
  | 0, _, _ => none
  | fuel + 1, root, idx =>
    let next := idx / 2
    if q.cmp compare element (root next) < 0 then
      insertLoop q element fuel (update root idx (root next)) next
    else some (update root idx element)

def queueInsert (element : α) : Option (Queue α) :=
  let idx := q.elements + 1
  (q.insertLoop compare element (idx + 1) (update q.root 0 element) idx).map fun root =>
    { q with root := root, elements := idx }

def nextIndex (root : ℕ → α) (idx : ℕ) : ℕ :=
  if idx + idx < q.elements ∧ 0 < q.cmp compare (root (idx + idx)) (root (idx + idx + 1)) then
    idx + idx + 1
  else idx + idx

/-- The first loop of `_downheap`: the way down to a leaf, with a look at the element on the first
level only.  The result says where the hole is, or is the whole array if the element stays. -/
def downLoop (q : Queue α) (element : α) :
    ℕ → Bool → (ℕ → α) → ℕ → Option ((ℕ → α) ⊕ (ℕ → α) × ℕ)
  | 0, _, _, _ => none
  | fuel + 1, first, root, idx =>
    if idx ≤ q.elements / 2 then
      let next := q.nextIndex compare root idx
      if first ∧ 0 ≤ q.cmp compare (root next) element then
        some (.inl (update root idx element))
      else downLoop q element fuel false (update root idx (root next)) next
    else some (.inr (root, idx))

/-- The second loop of `_downheap`: the way back to the place of the element. -/
def upLoop (q : Queue α) (element : α) (start : ℕ) : ℕ → (ℕ → α) → ℕ → Option (ℕ → α)
  | 0, _, _ => none
  | fuel + 1, root, idx =>
    let next := idx / 2
    if start < next then
      if q.cmp compare (root next) element < 0 then some (update root idx element)
      else upLoop q element start fuel (update root idx (root next)) next
    else some (update root idx element)

/-- `_downheap`. -/
def downheap (idx : ℕ) : Option (Queue α) :=
  let element := q.root idx
  (q.downLoop compare element (q.elements + 1) true q.root idx).bind fun
    | .inl root => some { q with root := root }
    | .inr (root, hole) =>
      (q.upLoop compare element idx (hole + 1) root hole).map fun root => { q with root := root }

/-- `queue_remove`, with the element that was removed. -/
def queueRemove (idx : ℕ) : Option (Queue α × α) :=
  let idx := idx + 1
  let q' := { q with
    root := update q.root idx (q.root q.elements), elements := q.elements - 1 }
  (q'.downheap compare idx).map fun q' => (q', q.root idx)

def queueReplaced : Option (Queue α) := q.downheap compare 1

/-- The loop of `queue_fix` from a position down. -/
def fixLoop : ℕ → Queue α → Option (Queue α)
  | 0, q => some q
  | i + 1, q => (q.downheap compare (i + 1)).bind (fixLoop i)

def queueFix : Option (Queue α) := q.fixLoop compare (q.elements / 2)

/-! ## Calls -/

/-- The calls; before `queue_replaced` the top is another element, and before `queue_fix` all of
them may be. -/
inductive Op (α : Type*) where
  | insert (element : α)
  | remove (idx : ℕ)
  | replaced (element : α)
  | fix (root : ℕ → α)

def Enabled : Op α → Prop
  | .insert _ => q.elements < q.maxElements
  | .remove idx => idx < q.elements
  | .replaced _ => 0 < q.elements
  | .fix _ => True

instance (q : Queue α) : DecidablePred q.Enabled := fun a => by
  cases a <;> unfold Enabled <;> infer_instance

def perform (q : Queue α) : Op α → Option (Queue α)
  | .insert element => q.queueInsert compare element
  | .remove idx => (q.queueRemove compare idx).map Prod.fst
  | .replaced element =>
    { q with root := update q.root 1 element }.queueReplaced compare
  | .fix root => { q with root := root }.queueFix compare

def system : System (Queue α) (Op α) where
  init q := ∃ root maxElements maxAtTop, q = initQueue root maxElements maxAtTop
  step q a := if q.Enabled a then q.perform compare a else none

def IsHeap (q : Queue α) : Prop :=
  HeapFrom (fun a b => ¬ q.cmp compare b a < 0) 1 q.elements q.root

instance (q : Queue α) : Decidable (q.IsHeap compare) :=
  inferInstanceAs (Decidable (HeapFrom _ _ _ _))

end Queue

end MySQL.Mysys
