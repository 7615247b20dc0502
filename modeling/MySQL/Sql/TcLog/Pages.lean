import Mathlib

/-!
# Pages of the memory-mapped log of the transaction coordinator

`TC_LOG_MMAP` of `log.cc`.  Addresses are counted in bytes from the start of the mapped file, and a
slot has 8 bytes.
-/

namespace MySQL.Sql.TcLog

/-- `PAGE`; a pointer that is not set is `none`. -/
structure Page where
  start : ℤ
  stop : ℤ
  ptr : Option ℤ
  size : ℤ
  free : ℤ
  deriving DecidableEq

/-- An `ulong` that is assigned to an `int`. -/
def toInt32 (n : ℕ) : ℤ := (BitVec.ofNat 32 n).toInt

/-- The size of the first page in slots, with `TC_LOG_HEADER_SIZE`. -/
def firstSize (pageSize : ℕ) : ℤ := toInt32 ((2 ^ 64 + pageSize - 5) % 2 ^ 64 / 8)

/-- The set-up of a page in `TC_LOG_MMAP::open`.  The page size is added to a pointer to slots. -/
def openPage (pageSize i : ℕ) : Page :=
  let start : ℤ := i * pageSize
  let stop := start + 8 * pageSize
  if i = 0 then ⟨stop - 8 * firstSize pageSize, stop, none, firstSize pageSize, firstSize pageSize⟩
  else ⟨start, stop, none, toInt32 (pageSize / 8), toInt32 (pageSize / 8)⟩

/-- The search of `log_xid` for a slot of the page, from `ptr` on; `none` if it reads from NULL or
finds none.  The result is the memory, the page and the cookie. -/
def logXid (mem : ℤ → ℕ) (xid : ℕ) : ℕ → Page → Option ((ℤ → ℕ) × Page × ℤ)
  | 0, _ => none
  | fuel + 1, p => p.ptr.bind fun x =>
    if mem x ≠ 0 then logXid mem xid fuel { p with ptr := some (x + 8) }
    else some (Function.update mem x xid, { p with ptr := some (x + 8), free := p.free - 1 }, x)

def Page.slots (p : Page) : Set ℤ := Set.Ico p.start p.stop

theorem firstSize_nonpos_iff {pageSize : ℕ} (hpos : 0 < pageSize) (hle : pageSize ≤ 8192) :
    firstSize pageSize ≤ 0 ↔ pageSize < 13 := by
  unfold firstSize toInt32
  by_cases hlt : pageSize < 5
  · interval_cases pageSize <;> decide
  · have hsize : (2 ^ 64 + pageSize - 5) % 2 ^ 64 / 8 = (pageSize - 5) / 8 := by omega
    rw [BitVec.toInt_ofNat', Int.bmod_eq_of_le (by omega) (by omega)]
    omega

theorem logXid_openPage {mem : ℤ → ℕ} {xid fuel pageSize i : ℕ} :
    logXid mem xid fuel (openPage pageSize i) = none := by
  have hptr : (openPage pageSize i).ptr = none := by
    unfold openPage
    split <;> rfl
  cases fuel with
  | zero => rfl
  | succ fuel => rw [logXid, hptr, Option.bind_none]

/-- The slots of two pages are apart just if eight pages lie between their starts, or the first of
them has no slot; and `log_xid` finds a slot on no page as it is set up. -/
theorem openPage_disjoint_iff (pageSize i j : ℕ) (hsize : pageSize ∣ 8192) (hij : i < j) :
    (Disjoint (openPage pageSize i).slots (openPage pageSize j).slots ↔
        i + 8 ≤ j ∨ i = 0 ∧ pageSize < 13) ∧
      ∀ mem xid fuel, logXid mem xid fuel (openPage pageSize i) = none := by
  have hpos : 0 < pageSize := Nat.pos_of_dvd_of_pos hsize (by decide)
  have hle : pageSize ≤ 8192 := Nat.le_of_dvd (by decide) hsize
  have hpages : (i + 8) * pageSize ≤ j * pageSize ↔ i + 8 ≤ j := Nat.mul_le_mul_right_iff hpos
  have hstarts : i * pageSize ≤ j * pageSize := Nat.mul_le_mul_right pageSize hij.le
  rw [Nat.add_mul] at hpages
  refine ⟨?_, fun mem xid fuel => logXid_openPage⟩
  · have hj : openPage pageSize j = ⟨j * pageSize, j * pageSize + 8 * pageSize, none,
        toInt32 (pageSize / 8), toInt32 (pageSize / 8)⟩ := if_neg (by omega)
    rw [Page.slots, Page.slots, Set.Ico_disjoint_Ico, hj]
    unfold openPage
    split
    · next hi =>
      have hfirst := firstSize_nonpos_iff hpos hle
      dsimp only
      omega
    · next hi =>
      dsimp only
      omega

theorem openPage_disjoint_iff_eight : Disjoint (openPage 4096 0).slots (openPage 4096 8).slots :=
  (openPage_disjoint_iff 4096 0 8 (by decide) (by decide)).1.mpr (.inl le_rfl)

/-- The first two pages of a log with pages of 4096 bytes share a slot, and the first `log_xid`
reads from NULL. -/
theorem openPage_overlap :
    (32760 ∈ (openPage 4096 0).slots ∧ 32760 ∈ (openPage 4096 1).slots) ∧
      logXid (fun _ => 0) 7 512 (openPage 4096 0) = none := by
  simp only [Page.slots, Set.mem_Ico]
  decide

end MySQL.Sql.TcLog
