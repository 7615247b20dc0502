import MySQL.Lib.BitBytes
import MySQL.Sql.Rpl.RowImage

/-!
# What is read back from a row image

The writer and the reader go through the NULL bits with masks of their own.  Both are at the bit
whose number is the number of used columns so far, so the reader finds the bit of every column and
the packed value where the writer put it.
-/

namespace MySQL.Sql.Rpl

open Lib List

variable {V : Type*} {γ : Type*}

/-! ## Used columns -/

def collect (cols : Bitmap) (f : ℕ → List γ) (k : ℕ) : List γ :=
  (List.range k).flatMap fun i => if cols.isSet i then f i else []

variable {cols : Bitmap} {f : ℕ → List γ} {k n i : ℕ}

theorem collect_succ (h : cols.isSet k = true) :
    collect cols f (k + 1) = collect cols f k ++ f k := by
  simp [collect, range_succ, h]

theorem collect_succ_of_not (h : cols.isSet k = false) :
    collect cols f (k + 1) = collect cols f k := by
  simp [collect, range_succ, h]

theorem collect_split (h : cols.isSet i = true) (hi : i < n) :
    ∃ rest, collect cols f n = collect cols f i ++ f i ++ rest := by
  induction n with
  | zero => omega
  | succ n ih =>
    by_cases hin : i = n
    · subst hin
      exact ⟨[], by rw [collect_succ h, append_nil]⟩
    · obtain ⟨rest, hrest⟩ := ih (by omega)
      cases hn : cols.isSet n with
      | true => exact ⟨rest ++ f n, by rw [collect_succ hn, hrest, append_assoc _ rest]⟩
      | false => exact ⟨rest, by rw [collect_succ_of_not hn, hrest]⟩

theorem length_collect_singleton (g : ℕ → γ) (k : ℕ) :
    (collect cols (fun i => [g i]) k).length = (List.range k).countP cols.isSet := by
  induction k with
  | zero => rfl
  | succ k ih =>
    rw [range_succ, countP_append, ← ih]
    cases h : cols.isSet k with
    | true => simp [collect_succ h, h]
    | false => simp [collect_succ_of_not h, h]

def nulls (t : Table V) (cols : Bitmap) (r : Record V) (k : ℕ) : List Bool :=
  collect cols (fun i => [t.isNull r i]) k

def packed (t : Table V) (cols : Bitmap) (r : Record V) (k : ℕ) : List UInt8 :=
  collect cols (fun i => if t.isNull r i then [] else t.pack i (r.value i)) k

variable {t : Table V} {r : Record V}

theorem maybeNull_of_isNull (h : t.isNull r k = true) : t.maybeNull k = true := by
  rw [Table.isNull, Bool.and_eq_true] at h
  exact h.1

theorem length_nulls (k : ℕ) : (nulls t cols r k).length = (List.range k).countP cols.isSet :=
  length_collect_singleton _ k

theorem length_nulls_le (h : k ≤ n) : (nulls t cols r k).length ≤ (nulls t cols r n).length := by
  rw [length_nulls, length_nulls]
  exact (range_sublist.mpr h).countP_le

theorem getElem?_nulls (h : cols.isSet i = true) (hi : i < n) :
    (nulls t cols r n)[(nulls t cols r i).length]? = some (t.isNull r i) := by
  obtain ⟨rest, hrest⟩ := collect_split h hi
  rw [nulls, hrest, ← nulls]
  simp

/-! ## Masks -/

theorem mask_eq_zero {e : ℕ} (he : e ≤ 8) : (1 : BitVec 32) <<< e &&& 0xFF = 0 ↔ e = 8 := by
  interval_cases e <;> decide

theorem one_lt_mask {e : ℕ} (he : e < 8) :
    (1 : BitVec 32) < (1 : BitVec 32) <<< e &&& 0xFF ↔ e ≠ 0 := by
  interval_cases e <;> decide

theorem getLsbD_ff {b : ℕ} (hb : b < 8) : (0xFF : BitVec 32).getLsbD b = true := by
  interval_cases b <;> decide

/-! ## Writing -/

/-- What was written so far: the NULL bits `ns` and the values `data`.  The bits behind the last
column are set. -/
def Packing (nb : ℕ) (ns : List Bool) (data : List UInt8) (s : Packer) : Prop :=
  Writing true nb ns data s.mem s.nullPtr s.nullBits s.nullMask s.packPtr

namespace Packing

variable {nb : ℕ} {ns : List Bool} {data chunk : List UInt8} {s s' : Packer} {x : Bool}

theorem advance (h : Packing nb ns data s) (hroom : ns.length / 8 < nb)
    (hptr : s'.nullPtr = s.nullPtr) (hmask : s'.nullMask = s.nullMask)
    (hbits : Filled true ns x s'.nullBits) (hpack : s'.packPtr = s.packPtr + chunk.length)
    (hmem : s'.mem = write s.mem s.packPtr chunk) :
    Packing nb (ns ++ [x]) (data ++ chunk) s'.advance := by
  have hchunk := h.append (Nat.le_of_lt hroom) chunk
  rw [← hmem, ← hpack, ← hptr, ← hmask] at hchunk
  have hzero := mask_eq_zero (e := ns.length % 8 + 1) (by omega)
  rw [BitVec.shiftLeft_add, ← hchunk.collecting.mask_eq] at hzero
  unfold Packer.advance
  simp only [hzero]
  split
  · next hfull => exact hchunk.bit_full hbits hfull hroom fun b hb => getLsbD_ff hb
  · next hpart => exact hchunk.bit hbits hpart

theorem step (h : Packing nb (nulls t cols r k) (packed t cols r k) s)
    (hroom : (nulls t cols r (k + 1)).length ≤ 8 * nb) :
    Packing nb (nulls t cols r (k + 1)) (packed t cols r (k + 1)) (s.step t cols r k) := by
  unfold Packer.step
  split
  · next hset =>
    rw [nulls, packed, collect_succ hset, collect_succ hset]
    have hroom' : (nulls t cols r k).length / 8 < nb := by
      rw [nulls, collect_succ hset, ← nulls, length_append, length_singleton] at hroom
      omega
    unfold Packer.put
    split
    · next hnull =>
      rw [hnull]
      exact h.advance hroom' rfl rfl h.collecting.or rfl (write_nil ..).symm
    · next hnull =>
      rw [Bool.not_eq_true] at hnull
      rw [hnull]
      exact h.advance hroom' rfl rfl h.collecting.and_not rfl rfl
  · next hset =>
    rw [Bool.not_eq_true] at hset
    rwa [nulls, packed, collect_succ_of_not hset, collect_succ_of_not hset]

theorem run (hs : Packing nb [] [] s) (hroom : (nulls t cols r n).length ≤ 8 * nb) :
    Packing nb (nulls t cols r n) (packed t cols r n)
      ((List.range n).foldl (Packer.step t cols r) s) := by
  induction n with
  | zero => exact hs
  | succ n ih =>
    rw [range_succ, foldl_append]
    exact (ih ((length_nulls_le n.le_succ).trans hroom)).step hroom

end Packing

abbrev Image (nb : ℕ) (ns : List Bool) (data : List UInt8) (mem : ℕ → UInt8) : Prop :=
  BitImage true nb ns data mem

theorem Packing.image {nb : ℕ} {ns : List Bool} {data : List UInt8} {s : Packer}
    (h : Packing nb ns data s) (hroom : nb = (ns.length + 7) / 8) :
    Image nb ns data (if (1 : BitVec 32) < s.nullMask &&& 0xFF then
      write s.mem s.nullPtr [UInt8.ofBitVec (s.nullBits.setWidth 8)] else s.mem) := by
  simp only [h.collecting.mask_eq, one_lt_mask (Nat.mod_lt _ (by decide))]
  exact Writing.image h hroom

def nullBytes (cols : Bitmap) : ℕ := (cols.bitsSet + 7) / 8

theorem packRow_spec (hcols : cols.nBits = t.fields) (mem : ℕ → UInt8) :
    Image (nullBytes cols) (nulls t cols r t.fields) (packed t cols r t.fields)
        (packRow t cols mem r).1 ∧
      (packRow t cols mem r).2 = nullBytes cols + (packed t cols r t.fields).length := by
  have hroom : nullBytes cols = ((nulls t cols r t.fields).length + 7) / 8 := by
    rw [length_nulls, nullBytes, Bitmap.bitsSet, hcols]
  have hinit : Packing (nullBytes cols) [] [] ⟨mem, (cols.bitsSet + 7) / 8, 0, 0xFF, 1⟩ :=
    writing_start fun b hb => getLsbD_ff hb
  have hle : (nulls t cols r t.fields).length ≤ 8 * nullBytes cols := by omega
  have hrun := hinit.run hle
  exact ⟨hrun.image hroom, hrun.dst_eq⟩

/-! ## Reading -/

def Position (mem : ℕ → UInt8) (j : ℕ) (s : Unpacker V) : Prop :=
  ∃ q e, e ≤ 8 ∧ 8 * q + e = j ∧ s.nullPtr = q + 1 ∧ s.nullMask = (1 : BitVec 32) <<< e ∧
    s.nullBits = (mem q).toBitVec.setWidth 32

def AtBit (mem : ℕ → UInt8) (j : ℕ) (s : Unpacker V) : Prop :=
  s.nullPtr = j / 8 + 1 ∧ s.nullMask = (1 : BitVec 32) <<< (j % 8) ∧
    s.nullBits = (mem (j / 8)).toBitVec.setWidth 32

namespace Unpacker

variable {mem : ℕ → UInt8} {j : ℕ} {s : Unpacker V}

@[simp] theorem row_refill : (s.refill mem).row = s.row := by
  unfold refill
  split <;> rfl

@[simp] theorem packPtr_refill : (s.refill mem).packPtr = s.packPtr := by
  unfold refill
  split <;> rfl

theorem atBit_refill (h : Position mem j s) : AtBit mem j (s.refill mem) := by
  obtain ⟨q, e, he, rfl, hptr, hmask, hbits⟩ := h
  simp only [refill, hmask, mask_eq_zero he]
  split
  · next hfull =>
    subst hfull
    rw [show (8 * q + 8) = 8 * (q + 1) by omega]
    refine ⟨?_, ?_, ?_⟩
    · rw [hptr, Nat.mul_div_cancel_left _ (by decide)]
    · rw [Nat.mul_mod_right]
      rfl
    · rw [Nat.mul_div_cancel_left _ (by decide), hptr]
  · next hpart =>
    have hdiv : (8 * q + e) / 8 = q := by omega
    have hmod : (8 * q + e) % 8 = e := by omega
    refine ⟨?_, ?_, ?_⟩
    · rw [hdiv, hptr]
    · rw [hmod, hmask]
    · rw [hdiv, hbits]

theorem isNull_of_atBit (h : AtBit mem j s) :
    s.isNull = (mem (j / 8)).toBitVec.getLsbD (j % 8) := by
  obtain ⟨-, hmask, hbits⟩ := h
  rw [isNull, Bool.eq_iff_iff, decide_eq_true_iff, hmask, hbits,
    byte_and_mask_ne_zero (Nat.mod_lt _ (by decide))]

theorem position_advance (h : AtBit mem j s) : Position mem (j + 1) s.advance := by
  obtain ⟨hptr, hmask, hbits⟩ := h
  refine ⟨j / 8, j % 8 + 1, by omega, by omega, hptr, ?_, hbits⟩
  simp only [advance, hmask, BitVec.shiftLeft_add]

theorem atBit_read (t : Table V) (i : ℕ) (h : AtBit mem j s) : AtBit mem j (s.read t mem i) := by
  unfold read
  split_ifs <;> exact h

theorem atBit_pass (d : TableDef) (i : ℕ) (h : AtBit mem j s) : AtBit mem j (s.pass d mem i) := by
  unfold pass
  split_ifs <;> exact h

end Unpacker

/-- The reader's table is the writer's table on the columns of both, and the reader knows how the
other columns are written.  The bytes behind a packed value do not matter. -/
structure Fits (t slave : Table V) (d : TableDef) : Prop where
  size_eq : d.size = t.fields
  unpack_pack : ∀ i < min t.fields slave.fields, ∀ v mem, Stands mem 0 (t.pack i v) →
    slave.unpack i mem = (v, (t.pack i v).length)
  calcFieldSize_pack : ∀ i < t.fields, ∀ v mem, Stands mem 0 (t.pack i v) →
    d.calcFieldSize i mem = (t.pack i v).length
  maybeNull : ∀ i < min t.fields slave.fields, t.maybeNull i = true → slave.maybeNull i = true
  maybeNull_def : ∀ i < t.fields, t.maybeNull i = true → d.maybeNull i = true

/-- The used columns in front of a column have the NULL bits and the values of a record, all other
columns are those of the target. -/
structure Restored (t slave : Table V) (cols : Bitmap) (r target : Record V) (k : ℕ)
    (row : Record V) : Prop where
  isNull_eq : ∀ i < k, cols.isSet i = true → slave.isNull row i = t.isNull r i
  value_eq : ∀ i < k, cols.isSet i = true → t.isNull r i = false → row.value i = r.value i
  value_other : ∀ i, (i < k → cols.isSet i = false) → row.value i = target.value i
  null_other : ∀ i, (i < k → cols.isSet i = false) → row.null i = target.null i

section Reading

variable {slave : Table V} {d : TableDef} {mem : ℕ → UInt8} {target : Record V}
  {s : Unpacker V}

theorem Restored.put {row : Record V} {v : V} {b : Bool} (h : Restored t slave cols r target k row)
    (hset : cols.isSet k = true) (hb : b = t.isNull r k)
    (hmay : b = true → slave.maybeNull k = true) (hv : t.isNull r k = false → v = r.value k) :
    Restored t slave cols r target (k + 1) ((row.setBit slave k b).setValue k v) := by
  have hother (i : ℕ) (hi : i ≠ k) :
      ((row.setBit slave k b).setValue k v).value i = row.value i ∧
        ((row.setBit slave k b).setValue k v).null i = row.null i := by
    unfold Record.setValue Record.setBit
    split <;> simp [Function.update_of_ne hi]
  have hvalue : ((row.setBit slave k b).setValue k v).value k = v := Function.update_self ..
  have hnull : slave.isNull ((row.setBit slave k b).setValue k v) k = b := by
    unfold Table.isNull Record.setValue Record.setBit
    cases hm : slave.maybeNull k with
    | true => simp
    | false =>
      cases b with
      | true => simp [hm] at hmay
      | false => simp
  refine ⟨fun i hi hi' => ?_, fun i hi hi' hn => ?_, fun i hi => ?_, fun i hi => ?_⟩
  · by_cases hik : i = k
    · rw [hik, hnull, hb]
    · rw [Table.isNull, (hother i hik).2]
      exact h.isNull_eq i (by omega) hi'
  · by_cases hik : i = k
    · subst hik
      rw [hvalue, hv hn]
    · rw [(hother i hik).1]
      exact h.value_eq i (by omega) hi' hn
  · have hik : i ≠ k := by
      rintro rfl
      simp [hset] at hi
    rw [(hother i hik).1]
    exact h.value_other i fun hlt => hi (by omega)
  · have hik : i ≠ k := by
      rintro rfl
      simp [hset] at hi
    rw [(hother i hik).2]
    exact h.null_other i fun hlt => hi (by omega)

theorem Restored.pass {row : Record V} (h : Restored t slave cols r target k row)
    (hset : cols.isSet k = false) : Restored t slave cols r target (k + 1) row := by
  have hlt {i : ℕ} (hi : i < k + 1) (hi' : cols.isSet i = true) : i < k := by
    refine lt_of_le_of_ne (Nat.lt_succ_iff.mp hi) ?_
    rintro rfl
    rw [hset] at hi'
    exact Bool.noConfusion hi'
  exact ⟨fun i hi hi' => h.isNull_eq i (hlt hi hi') hi',
    fun i hi hi' => h.value_eq i (hlt hi hi') hi',
    fun i hi => h.value_other i fun hlt => hi (by omega),
    fun i hi => h.null_other i fun hlt => hi (by omega)⟩

/-- The reader is in front of a column. -/
structure Reading (t : Table V) (cols : Bitmap) (r : Record V) (mem : ℕ → UInt8) (k : ℕ)
    (s : Unpacker V) : Prop where
  position : Position mem (nulls t cols r k).length s
  packPtr_eq : s.packPtr = nullBytes cols + (packed t cols r k).length

theorem stands_of_image (h : Image (nullBytes cols) (nulls t cols r n) (packed t cols r n) mem)
    (hk : k < n) (hset : cols.isSet k = true) (hnull : t.isNull r k = false) :
    Stands (shifted mem (nullBytes cols + (packed t cols r k).length)) 0
      (t.pack k (r.value k)) := by
  obtain ⟨rest, hrest⟩ :=
    collect_split hset hk
  have hstands := h.stands
  rw [packed, hrest, stands_append, stands_append, hnull] at hstands
  rw [stands_shifted]
  exact hstands.1.2

theorem Reading.refill (h : Reading t cols r mem k s)
    (himage : Image (nullBytes cols) (nulls t cols r n) (packed t cols r n) mem)
    (hk : k < n) (hset : cols.isSet k = true) :
    AtBit mem (nulls t cols r k).length (s.refill mem) ∧
      (s.refill mem).isNull = t.isNull r k := by
  have hbit := Unpacker.atBit_refill h.position
  refine ⟨hbit, ?_⟩
  have hnull := getElem?_nulls (t := t) (r := r) hset hk
  have hlt := (List.getElem?_eq_some_iff.mp hnull).1
  rw [Unpacker.isNull_of_atBit hbit, himage.bits.getLsbD_eq (hlt.trans_le himage.length_le),
    bitAt_of_getElem? hnull]

theorem Reading.advance {s' : Unpacker V} (hset : cols.isSet k = true)
    (hbit : AtBit mem (nulls t cols r k).length s')
    (hptr : s'.packPtr = nullBytes cols + (packed t cols r k).length +
      (if t.isNull r k then [] else t.pack k (r.value k)).length) :
    Reading t cols r mem (k + 1) s'.advance := by
  refine ⟨?_, ?_⟩
  · rw [nulls, collect_succ hset, length_append]
    exact Unpacker.position_advance hbit
  · rw [packed, collect_succ hset, length_append, ← Nat.add_assoc]
    exact hptr

theorem Reading.pass (h : Reading t cols r mem k s) (hset : cols.isSet k = false) :
    Reading t cols r mem (k + 1) s := by
  refine ⟨?_, ?_⟩
  · rw [nulls, collect_succ_of_not hset]
    exact h.position
  · rw [packed, collect_succ_of_not hset]
    exact h.packPtr_eq

variable (hfit : Fits t slave d)
  (himage : Image (nullBytes cols) (nulls t cols r t.fields) (packed t cols r t.fields) mem)

include hfit himage

theorem reading_step (hk : k < min t.fields slave.fields) (h : Reading t cols r mem k s)
    (hrow : Restored t slave cols r target k s.row) :
    Reading t cols r mem (k + 1) (s.step slave cols mem k) ∧
      Restored t slave cols r target (k + 1) (s.step slave cols mem k).row := by
  unfold Unpacker.step
  split
  · next hset =>
    obtain ⟨hbit, hnull⟩ := h.refill himage (by omega) hset
    have hbit' := Unpacker.atBit_read slave k hbit
    cases hn : t.isNull r k with
    | true =>
      have hmay : slave.maybeNull k = true :=
        hfit.maybeNull k hk (maybeNull_of_isNull hn)
      rw [hn] at hnull
      unfold Unpacker.read at hbit' ⊢
      rw [if_pos hnull, if_pos hmay] at hbit' ⊢
      refine ⟨Reading.advance hset hbit' ?_, ?_⟩
      · simp [h.packPtr_eq, hn]
      · have hput := hrow.put (v := slave.empty k) hset hn.symm (fun _ => hmay)
          (by simp [hn])
        simpa [Unpacker.advance, Record.setBit, Record.setValue, hmay] using hput
    | false =>
      rw [hn] at hnull
      have hunpack := hfit.unpack_pack k hk _ _ (stands_of_image himage (by omega) hset hn)
      unfold Unpacker.read at hbit' ⊢
      rw [if_neg (by simp [hnull]), Unpacker.packPtr_refill, h.packPtr_eq, hunpack] at hbit' ⊢
      refine ⟨Reading.advance hset hbit' (by simp [hn]), ?_⟩
      have hput := hrow.put hset hn.symm (by simp) (fun _ => rfl)
      simpa [Unpacker.advance] using hput
  · next hset =>
    rw [Bool.not_eq_true] at hset
    exact ⟨h.pass hset, hrow.pass hset⟩

theorem reading_run (hn : n ≤ min t.fields slave.fields) (h : Reading t cols r mem 0 s)
    (hrow : Restored t slave cols r target 0 s.row) :
    Reading t cols r mem n ((List.range n).foldl (Unpacker.step slave cols mem) s) ∧
      Restored t slave cols r target n
        ((List.range n).foldl (Unpacker.step slave cols mem) s).row := by
  induction n with
  | zero => exact ⟨h, hrow⟩
  | succ n ih =>
    obtain ⟨hread, hrest⟩ := ih (by omega)
    rw [range_succ, foldl_append]
    exact reading_step hfit himage (by omega) hread hrest

theorem reading_skip (hk : k < t.fields) (h : Reading t cols r mem k s) :
    Reading t cols r mem (k + 1) (s.skip d cols mem k) ∧ (s.skip d cols mem k).row = s.row := by
  unfold Unpacker.skip
  split
  · next hset =>
    obtain ⟨hbit, hnull⟩ := h.refill himage hk hset
    have hbit' := Unpacker.atBit_pass d k hbit
    cases hn : t.isNull r k with
    | true =>
      have hmay : d.maybeNull k = true :=
        hfit.maybeNull_def k hk (maybeNull_of_isNull hn)
      rw [hn] at hnull
      unfold Unpacker.pass at hbit' ⊢
      rw [if_pos (by simp [hnull, hmay])] at hbit' ⊢
      exact ⟨Reading.advance hset hbit' (by simp [h.packPtr_eq, hn]), by simp [Unpacker.advance]⟩
    | false =>
      rw [hn] at hnull
      have hsize := hfit.calcFieldSize_pack k hk _ _ (stands_of_image himage hk hset hn)
      unfold Unpacker.pass at hbit' ⊢
      rw [if_neg (by simp [hnull]), Unpacker.packPtr_refill, h.packPtr_eq, hsize] at hbit' ⊢
      exact ⟨Reading.advance hset hbit' (by simp [hn]), by simp [Unpacker.advance]⟩
  · next hset =>
    rw [Bool.not_eq_true] at hset
    exact ⟨h.pass hset, rfl⟩

theorem reading_skips (m : ℕ) (hm : k + m ≤ t.fields) (h : Reading t cols r mem k s) :
    Reading t cols r mem (k + m) ((List.range' k m).foldl (Unpacker.skip d cols mem) s) ∧
      ((List.range' k m).foldl (Unpacker.skip d cols mem) s).row = s.row := by
  induction m with
  | zero => exact ⟨h, rfl⟩
  | succ m ih =>
    obtain ⟨hread, hrest⟩ := ih (by omega)
    rw [List.range'_1_concat, foldl_append]
    have hskip := reading_skip hfit himage (by omega) hread
    exact ⟨hskip.1, hskip.2.trans hrest⟩

end Reading

/-- A row is read back from its image: the used columns that the reader's table has are restored,
its other columns are left alone, and the reader ends where the writer ended. -/
theorem unpackRow_packRow (t slave : Table V) (d : TableDef) (hfit : Fits t slave d)
    (cols : Bitmap) (hcols : cols.nBits = t.fields) (mem : ℕ → UInt8) (r target : Record V) :
    ∃ u, unpackRow (some d) slave t.fields (packRow t cols mem r).1 cols target = some u ∧
      u.rowEnd = (packRow t cols mem r).2 ∧
      (∀ i < min t.fields slave.fields, cols.isSet i = true →
        slave.isNull u.row i = t.isNull r i ∧
          (t.isNull r i = false → u.row.value i = r.value i)) ∧
      ∀ i, (i < min t.fields slave.fields → cols.isSet i = false) →
        u.row.value i = target.value i ∧ u.row.null i = target.null i := by
  obtain ⟨himage, hend⟩ := packRow_spec hcols mem
  generalize (packRow t cols mem r).1 = image at himage
  rw [hend]
  have hinit : Reading t cols r image 0
      (⟨target, (cols.bitsSet + 7) / 8, 1, (image 0).toBitVec.setWidth 32, 1⟩ : Unpacker V) :=
    ⟨⟨0, 0, by decide, rfl, rfl, rfl, rfl⟩, rfl⟩
  have htarget : Restored t slave cols r target 0 target :=
    ⟨fun i hi => by omega, fun i hi => by omega, fun _ _ => rfl, fun _ _ => rfl⟩
  obtain ⟨hread, hrow⟩ := reading_run hfit himage le_rfl hinit htarget
  have hlast : min t.fields slave.fields + (min d.size cols.nBits - min t.fields slave.fields) =
      t.fields := by
    rw [hfit.size_eq]
    omega
  obtain ⟨hskip, hsame⟩ := reading_skips hfit himage _ hlast.le hread
  refine ⟨_, rfl, ?_, fun i hi hset => ?_, fun i hi => ?_⟩
  · rw [hlast] at hskip
    exact hskip.packPtr_eq
  · dsimp only
    rw [hsame]
    exact ⟨hrow.isNull_eq i hi hset, hrow.value_eq i hi hset⟩
  · dsimp only
    rw [hsame]
    exact ⟨hrow.value_other i hi, hrow.null_other i hi⟩

def byteTable (fields : ℕ) : Table UInt8 where
  fields := fields
  maybeNull _ := true
  offset i := i + 1
  reclength := fields + 1
  pack _ v := [v]
  unpack _ mem := (mem 0, 1)
  empty _ := 0
  default _ := (0, false)

def byteTableDef (size : ℕ) : TableDef where
  size := size
  maybeNull _ := true
  calcFieldSize _ _ := 1

theorem fits_byteTable (m n : ℕ) : Fits (byteTable m) (byteTable n) (byteTableDef m) where
  size_eq := rfl
  unpack_pack _ _ v mem h := by
    rw [show (byteTable m).pack _ v = [v] from rfl, stands_singleton] at h
    exact congrArg (·, 1) h
  calcFieldSize_pack _ _ _ _ _ := rfl
  maybeNull _ _ _ := rfl
  maybeNull_def _ _ _ := rfl

/-- Ten columns are written, every third one is NULL, and the reader's table has nine columns. -/
theorem unpackRow_packRow_nine_of_ten :
    ∃ u, unpackRow (some (byteTableDef 10)) (byteTable 9) 10
        (packRow (byteTable 10) ⟨10, (· ≠ 4)⟩ (fun _ => 0) ⟨fun i => .ofNat i, (· % 3 = 0)⟩).1
        ⟨10, (· ≠ 4)⟩ ⟨fun _ => 77, fun _ => false⟩ = some u ∧
      u.rowEnd = 7 ∧ (byteTable 9).isNull u.row 3 = true ∧ u.row.value 8 = 8 ∧
      u.row.value 4 = 77 ∧ u.row.value 9 = 77 := by
  obtain ⟨u, hu, hend, hset, hother⟩ := unpackRow_packRow (byteTable 10) (byteTable 9)
    (byteTableDef 10) (fits_byteTable 10 9) ⟨10, (· ≠ 4)⟩ rfl (fun _ => 0)
    ⟨fun i => .ofNat i, (· % 3 = 0)⟩ ⟨fun _ => 77, fun _ => false⟩
  refine ⟨u, hu, hend.trans (by decide +kernel), ?_, ?_, ?_, ?_⟩
  · exact (hset 3 (by decide) (by decide)).1
  · exact (hset 8 (by decide) (by decide)).2 (by decide)
  · exact (hother 4 (by decide)).1
  · exact (hother 9 (by decide)).1

end MySQL.Sql.Rpl
