import Mathlib

/-!
# Metadata lock types and their compatibility

The lock types of `mdl.h`, the one-byte bitmaps of lock types, and the four
incompatibility matrices of `mdl.cc`.  Everything else about the matrices that
the lock manager relies on is finite and is decided here once.
-/

namespace MySQL.Mdl

/-- `enum_mdl_type`. -/
inductive MdlType where
  | intentionExclusive
  | shared
  | sharedHighPrio
  | sharedRead
  | sharedWrite
  | sharedNoWrite
  | sharedNoReadWrite
  | exclusive
  deriving DecidableEq, Repr

instance : Fintype MdlType where
  elems := {.intentionExclusive, .shared, .sharedHighPrio, .sharedRead, .sharedWrite,
    .sharedNoWrite, .sharedNoReadWrite, .exclusive}
  complete := by
    intro t
    cases t <;> decide

def MdlType.toNat : MdlType → ℕ
  | .intentionExclusive => 0
  | .shared => 1
  | .sharedHighPrio => 2
  | .sharedRead => 3
  | .sharedWrite => 4
  | .sharedNoWrite => 5
  | .sharedNoReadWrite => 6
  | .exclusive => 7

/-- `enum_mdl_duration`. -/
inductive MdlDuration where
  | statement
  | transaction
  | explicit
  deriving DecidableEq, Repr

/-- `MDL_key::enum_mdl_namespace`. -/
inductive MdlNamespace where
  | global
  | schema
  | table
  | function
  | procedure
  | trigger
  | event
  | commit
  deriving DecidableEq, Repr

/-- `MDL_key`: the bytes of the key are the namespace, the database name and
the object name. -/
structure MdlKey where
  mdlNamespace : MdlNamespace
  dbName : String
  name : String
  deriving DecidableEq, Repr

/-- `MDL_wait::enum_wait_status`. -/
inductive WaitStatus where
  | empty
  | granted
  | victim
  | timeout
  | killed
  deriving DecidableEq, Repr

/-! ## Bitmaps of lock types -/

/-- `MDL_lock::bitmap_t` is an unsigned character. -/
abbrev Bitmap := BitVec 8

/-- `MDL_BIT`. -/
def mdlBit (t : MdlType) : Bitmap := 1#8 <<< t.toNat

/-- The bit of `t` is set in `b`. -/
def Bitmap.Has (b : Bitmap) (t : MdlType) : Prop := mdlBit t &&& b ≠ 0#8

instance (b : Bitmap) (t : MdlType) : Decidable (b.Has t) :=
  inferInstanceAs (Decidable (mdlBit t &&& b ≠ 0#8))

namespace Bitmap

theorem has_iff_getLsbD (b : Bitmap) (t : MdlType) : b.Has t ↔ b.getLsbD t.toNat := by
  revert b
  cases t <;> decide

@[simp] theorem not_has_zero (t : MdlType) : ¬ Has 0#8 t := by
  simp [has_iff_getLsbD]

@[simp] theorem has_mdlBit (t u : MdlType) : Has (mdlBit t) u ↔ t = u := by
  revert t u
  decide

variable (b c : Bitmap) (t : MdlType)

@[simp] theorem has_or : Has (b ||| c) t ↔ b.Has t ∨ c.Has t := by
  simp [has_iff_getLsbD]

@[simp] theorem has_and : Has (b &&& c) t ↔ b.Has t ∧ c.Has t := by
  simp [has_iff_getLsbD]

@[simp] theorem has_not (b : Bitmap) (t : MdlType) : Has (~~~b) t ↔ ¬ b.Has t := by
  have ht : t.toNat < 8 := by cases t <;> decide
  simp [has_iff_getLsbD, ht]

theorem and_ne_zero_iff : b &&& c ≠ 0#8 ↔ ∃ t, b.Has t ∧ c.Has t := by
  have hne : ∀ d : Bitmap, d ≠ 0#8 ↔ ∃ t, d.Has t := by decide
  rw [hne]
  simp

theorem and_eq_zero_iff : b &&& c = 0#8 ↔ ∀ t, b.Has t → ¬ c.Has t := by
  have h := and_ne_zero_iff b c
  constructor
  · intro hz t hb hc
    exact (h.mpr ⟨t, hb, hc⟩) hz
  · intro hall
    by_contra hz
    obtain ⟨t, hb, hc⟩ := h.mp hz
    exact hall t hb hc

end Bitmap

/-! ## Compatibility matrices -/

/-- The two descendants of the abstract class `MDL_lock`. -/
inductive LockKind where
  | scoped
  | object
  deriving DecidableEq, Repr

instance : Fintype LockKind where
  elems := {.scoped, .object}
  complete := by
    intro k
    cases k <;> decide

/-- The class chosen by `MDL_lock::create` for a namespace. -/
def LockKind.ofNamespace : MdlNamespace → LockKind
  | .global | .schema | .commit => .scoped
  | _ => .object

/-- `m_granted_incompatible` of the two classes. -/
def incompatibleGrantedTypesBitmap : LockKind → MdlType → Bitmap
  | .scoped, .intentionExclusive => mdlBit .exclusive ||| mdlBit .shared
  | .scoped, .shared => mdlBit .exclusive ||| mdlBit .intentionExclusive
  | .scoped, .exclusive =>
    mdlBit .exclusive ||| mdlBit .shared ||| mdlBit .intentionExclusive
  | .scoped, _ => 0#8
  | .object, .intentionExclusive => 0#8
  | .object, .shared => mdlBit .exclusive
  | .object, .sharedHighPrio => mdlBit .exclusive
  | .object, .sharedRead => mdlBit .exclusive ||| mdlBit .sharedNoReadWrite
  | .object, .sharedWrite =>
    mdlBit .exclusive ||| mdlBit .sharedNoReadWrite ||| mdlBit .sharedNoWrite
  | .object, .sharedNoWrite =>
    mdlBit .exclusive ||| mdlBit .sharedNoReadWrite ||| mdlBit .sharedNoWrite |||
      mdlBit .sharedWrite
  | .object, .sharedNoReadWrite =>
    mdlBit .exclusive ||| mdlBit .sharedNoReadWrite ||| mdlBit .sharedNoWrite |||
      mdlBit .sharedWrite ||| mdlBit .sharedRead
  | .object, .exclusive =>
    mdlBit .exclusive ||| mdlBit .sharedNoReadWrite ||| mdlBit .sharedNoWrite |||
      mdlBit .sharedWrite ||| mdlBit .sharedRead ||| mdlBit .sharedHighPrio |||
      mdlBit .shared

/-- `m_waiting_incompatible` of the two classes. -/
def incompatibleWaitingTypesBitmap : LockKind → MdlType → Bitmap
  | .scoped, .intentionExclusive => mdlBit .exclusive ||| mdlBit .shared
  | .scoped, .shared => mdlBit .exclusive
  | .scoped, _ => 0#8
  | .object, .shared => mdlBit .exclusive
  | .object, .sharedRead => mdlBit .exclusive ||| mdlBit .sharedNoReadWrite
  | .object, .sharedWrite =>
    mdlBit .exclusive ||| mdlBit .sharedNoReadWrite ||| mdlBit .sharedNoWrite
  | .object, .sharedNoWrite => mdlBit .exclusive
  | .object, .sharedNoReadWrite => mdlBit .exclusive
  | .object, _ => 0#8

/-- `hog_lock_types_bitmap`: the strong types that may starve the weak ones. -/
def hogLockTypesBitmap : LockKind → Bitmap
  | .scoped => 0#8
  | .object => mdlBit .sharedNoWrite ||| mdlBit .sharedNoReadWrite ||| mdlBit .exclusive

/-- A granted `u` excludes a request for `t` by another context. -/
def Incompatible (k : LockKind) (t u : MdlType) : Prop :=
  (incompatibleGrantedTypesBitmap k t).Has u

instance (k : LockKind) (t u : MdlType) : Decidable (Incompatible k t u) :=
  inferInstanceAs (Decidable ((incompatibleGrantedTypesBitmap k t).Has u))

/-- `MDL_ticket::has_stronger_or_equal_type` for a ticket of type `held`. -/
def hasStrongerOrEqualType (k : LockKind) (held t : MdlType) : Bool :=
  incompatibleGrantedTypesBitmap k t &&& ~~~incompatibleGrantedTypesBitmap k held == 0#8

theorem incompatible_symm {k : LockKind} {t u : MdlType} (h : Incompatible k t u) :
    Incompatible k u t := by
  revert k t u
  decide

theorem incompatible_of_stronger {k : LockKind} {held t u : MdlType}
    (hs : hasStrongerOrEqualType k held t = true) (h : Incompatible k t u) :
    Incompatible k held u := by
  revert k held t u
  decide

theorem incompatible_exclusive {k : LockKind} {t u : MdlType} (h : Incompatible k t u) :
    Incompatible k .exclusive u := by
  revert k t u
  decide

theorem incompatible_exclusive_right {k : LockKind} {t u : MdlType} (h : Incompatible k t u) :
    Incompatible k t .exclusive :=
  incompatible_symm (incompatible_exclusive (incompatible_symm h))

theorem incompatible_of_waiting {k : LockKind} {t u : MdlType}
    (h : (incompatibleWaitingTypesBitmap k t).Has u) : Incompatible k t u := by
  revert k t u
  decide

theorem eq_exclusive_of_stronger {k : LockKind} {held : MdlType}
    (h : hasStrongerOrEqualType k held .exclusive = true) : held = .exclusive := by
  revert k held
  decide

end MySQL.Mdl
