import MySQL.Lib.Threads
import MySQL.Semisync.Allocator

/-!
# Active transactions

The positions of the transactions that wait for a reply are in a list, in the order of the binary
log, and in a hash table.
-/

namespace MySQL.Semisync

open List Function

open MySQL.Lib

/-! ## Positions -/

/-- A position in the binary log: the name of a file, without its terminator, and an offset. -/
structure LogPos where
  name : List UInt8
  pos : UInt64
deriving DecidableEq, Repr

def strcmp : List UInt8 → List UInt8 → Ordering
  | [], [] => .eq
  | [], _ :: _ => .lt
  | _ :: _, [] => .gt
  | a :: l, b :: m => if a < b then .lt else if b < a then .gt else strcmp l m

/-- `ActiveTranx::compare` -/
def LogPos.compare (p q : LogPos) : Ordering :=
  match strcmp p.name q.name with
  | .eq => if p.pos > q.pos then .gt else if p.pos < q.pos then .lt else .eq
  | cmp => cmp

def LogPos.key (p : LogPos) : Lex (List ℕ × ℕ) := toLex (p.name.map UInt8.toNat, p.pos.toNat)

theorem LogPos.key_injective : Function.Injective LogPos.key := by
  rintro ⟨n, p⟩ ⟨m, q⟩ h
  have hpair : (n.map UInt8.toNat, p.toNat) = (m.map UInt8.toNat, q.toNat) := h
  rw [Prod.mk.injEq] at hpair
  rw [LogPos.mk.injEq]
  refine ⟨?_, UInt64.toNat_inj.1 hpair.2⟩
  exact map_injective_iff.2 (fun _ _ => UInt8.toNat_inj.1) hpair.1

instance : LinearOrder LogPos := LinearOrder.lift' LogPos.key LogPos.key_injective

theorem strcmp_compares (l m : List UInt8) :
    (strcmp l m).Compares (l.map UInt8.toNat) (m.map UInt8.toNat) := by
  induction l generalizing m with
  | nil =>
    cases m with
    | nil => exact rfl
    | cons b m => exact nil_lt_cons _ _
  | cons a l ih =>
    cases m with
    | nil => exact nil_lt_cons _ _
    | cons b m =>
      rw [strcmp]
      split_ifs with hlt hgt
      · exact cons_lt_cons_iff.2 (Or.inl (UInt8.lt_iff_toNat_lt.1 hlt))
      · exact cons_lt_cons_iff.2 (Or.inl (UInt8.lt_iff_toNat_lt.1 hgt))
      · obtain rfl : a = b := by
          rw [UInt8.lt_iff_toNat_lt] at hlt hgt
          exact UInt8.toNat_inj.1 (by omega)
        have hrest := ih m
        generalize strcmp l m = o at hrest ⊢
        cases o with
        | lt | gt => exact cons_lt_cons_iff.2 (Or.inr ⟨rfl, hrest⟩)
        | eq => exact congrArg (List.cons a.toNat) hrest

theorem LogPos.lt_iff {p q : LogPos} : p < q ↔
    p.name.map UInt8.toNat < q.name.map UInt8.toNat ∨
      p.name.map UInt8.toNat = q.name.map UInt8.toNat ∧ p.pos.toNat < q.pos.toNat :=
  Prod.Lex.toLex_lt_toLex

theorem LogPos.compare_compares (p q : LogPos) : (p.compare q).Compares p q := by
  have hname := strcmp_compares p.name q.name
  rw [LogPos.compare]
  generalize strcmp p.name q.name = o at hname ⊢
  cases o with
  | lt | gt => exact LogPos.lt_iff.2 (Or.inl hname)
  | eq =>
    split_ifs with hgt hlt
    · exact LogPos.lt_iff.2 (Or.inr ⟨hname.symm, UInt64.lt_iff_toNat_lt.1 hgt⟩)
    · exact LogPos.lt_iff.2 (Or.inr ⟨hname, UInt64.lt_iff_toNat_lt.1 hlt⟩)
    · rw [gt_iff_lt, UInt64.lt_iff_toNat_lt] at hgt
      rw [UInt64.lt_iff_toNat_lt] at hlt
      exact LogPos.key_injective (congrArg toLex (Prod.ext hname (by omega)))

theorem LogPos.compare_eq_gt {p q : LogPos} : p.compare q = .gt ↔ q < p :=
  (LogPos.compare_compares p q).eq_gt

theorem LogPos.compare_eq_lt {p q : LogPos} : p.compare q = .lt ↔ p < q :=
  (LogPos.compare_compares p q).eq_lt

theorem LogPos.compare_eq_eq {p q : LogPos} : p.compare q = .eq ↔ p = q :=
  (LogPos.compare_compares p q).eq_eq

/-! ## The hash value -/

/-- The loop of `calc_hash`. -/
def calcHashLoop : UInt32 → UInt32 → List UInt8 → UInt32
  | nr, _, [] => nr
  | nr, nr2, c :: key =>
    calcHashLoop (nr ^^^ (((nr &&& (63 : UInt32)) + nr2) * c.toUInt32 + (nr <<< 8))) (nr2 + 3) key

def calcHash (key : List UInt8) : UInt32 := calcHashLoop 1 4 key

/-- The bytes of a `my_off_t` in memory. -/
def offBytes (pos : UInt64) : List UInt8 :=
  (List.range 8).map fun i => (pos >>> (8 * i.toUInt64)).toUInt8

def getHashValue (numEntries : ℕ) (p : LogPos) : ℕ :=
  (calcHash p.name + calcHash (offBytes p.pos)).toNat % numEntries

/-! ## The list and the hash table -/

/-- The fields of all nodes are functions of the place in memory. -/
structure ActiveTranx where
  numEntries : ℕ
  allocator : TranxNodeAllocator
  logPos : NodeAddr → LogPos
  next : NodeAddr → Option NodeAddr
  hashNext : NodeAddr → Option NodeAddr
  trxFront : Option NodeAddr
  trxRear : Option NodeAddr
  trxHtb : ℕ → Option NodeAddr

namespace ActiveTranx

def fuel (s : ActiveTranx) : ℕ := blockTranxNodes * s.allocator.usedBlocks.length

/-- The name is cut to `FN_REFLEN - 1` bytes. -/
def storedPos (p : LogPos) : LogPos := { p with name := p.name.take 511 }

variable (s : ActiveTranx) (node : NodeAddr)

def hashNode : ActiveTranx :=
  let hashVal := getHashValue s.numEntries (s.logPos node)
  { s with
    hashNext := update s.hashNext node (s.trxHtb hashVal)
    trxHtb := update s.trxHtb hashVal (some node) }

def fillNode (p : LogPos) : ActiveTranx :=
  { s with
    logPos := update s.logPos node (storedPos p)
    next := update s.next node none
    hashNext := update s.hashNext node none }

def linkNode : ActiveTranx × ℤ :=
  match s.trxFront, s.trxRear with
  | some _, some rear =>
    if (s.logPos node).compare (s.logPos rear) = .gt then
      (hashNode
        { s with next := update s.next rear (some node), trxRear := some node } node, 0)
    else (s, -1)
  | _, _ => (hashNode { s with trxFront := some node, trxRear := some node } node, 0)

def insertTranxNode (malloc : Option ℕ) (p : LogPos) : ActiveTranx × ℤ :=
  match s.allocator.allocateNode malloc with
  | (allocator, none) => ({ s with allocator := allocator }, -1)
  | (allocator, some node) => linkNode (fillNode { s with allocator := allocator } node p) node

def isTranxEndPos (p : LogPos) : Bool :=
  (search s.hashNext (fun entry => (s.logPos entry).compare p = .eq) s.fuel
    (s.trxHtb (getHashValue s.numEntries p))).isSome

def unhashNode : ActiveTranx :=
  let hashVal := getHashValue s.numEntries (s.logPos node)
  let unlinked := unlinkFrom (s.trxHtb hashVal) s.hashNext node s.fuel .start
  { s with
    trxHtb := update s.trxHtb hashVal unlinked.1
    hashNext := unlinked.2 }

def unhashUntil (newFront : Option NodeAddr) : ℕ → Option NodeAddr → ActiveTranx → ActiveTranx
  | 0, _, s => s
  | fuel + 1, currNode, s =>
    if currNode = newFront then s
    else
      match currNode with
      | none => s
      | some node => unhashUntil newFront fuel (s.next node) (s.unhashNode node)

/-- The second half of `clear_active_tranx_nodes`. -/
def clearBefore : Option NodeAddr → ActiveTranx
  | none =>
    { s with
      trxHtb := fun idx => if idx < s.numEntries then none else s.trxHtb idx
      allocator := s.allocator.freeAllNodes
      trxFront := none
      trxRear := none }
  | some newFront =>
    if some newFront = s.trxFront then s
    else
      let s := unhashUntil (some newFront) s.fuel s.trxFront s
      { s with trxFront := some newFront, allocator := s.allocator.freeNodesBefore newFront }

/-- A position of `none` stands for a null pointer. -/
def clearActiveTranxNodes : Option LogPos → ActiveTranx
  | some p => s.clearBefore
      (search s.next (fun node => (s.logPos node).compare p = .gt) s.fuel s.trxFront)
  | none => s.clearBefore none

end ActiveTranx

end MySQL.Semisync
