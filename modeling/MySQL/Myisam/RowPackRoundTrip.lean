import MySQL.Lib.BitBytes
import MySQL.Myisam.RowPack

/-!
# What is read back from a packed row

The bytes of each column are determined by the column alone, so it is enough to see for every type
that what is packed is unpacked again, whatever follows, and that the three functions go through the
bits in the same way.
-/

namespace MySQL.Myisam

open Lib List

variable {c : ColumnDef} {cell cell' : Cell} {mem zeroString blobData : ℕ → UInt8}
  {src srcEnd n m : ℕ} {bytes rest : List UInt8}

/-! ## Columns and records -/

/-- The widths of columns. -/
structure ColumnDef.Valid (c : ColumnDef) : Prop where
  spaces : c.type = .skipEndspace ∨ c.type = .skipPrespace → 1 ≤ c.length ∧ c.length < 32768
  zeros : c.type = .skipZero → c.length ≤ 16
  blob : c.type = .blob → sizeofCharPtr + 1 ≤ c.length ∧ c.length ≤ sizeofCharPtr + 4
  varchar : c.type = .varchar → 1 ≤ c.length ∧ c.length < 65536

def varcharLength (c : ColumnDef) (cell : Cell) : ℕ :=
  varcharPackLength (c.length - 1) + korr (cell.bytes.take (varcharPackLength (c.length - 1)))

def blobLength (c : ColumnDef) (cell : Cell) : ℕ :=
  calcBlobLength (c.length - sizeofCharPtr) cell.bytes

/-- A column of a record. -/
structure Cell.Fits (c : ColumnDef) (cell : Cell) : Prop where
  length_eq :
    cell.bytes.length = if c.type = .blob then c.length - sizeofCharPtr else c.length
  varchar : c.type = .varchar → varcharLength c cell ≤ c.length

def Restores (mem blobData : ℕ → UInt8) (c : ColumnDef) (cell cell' : Cell) : Prop :=
  match c.type with
  | .blob => cell'.bytes = cell.bytes ∧
      slice mem cell'.ptr (blobLength c cell) = slice blobData cell.ptr (blobLength c cell)
  | .varchar => cell'.bytes.take (varcharLength c cell) = cell.bytes.take (varcharLength c cell)
  | _ => cell'.bytes = cell.bytes

/-! ## Lengths -/

theorem korr_eq_zero {l : List UInt8} (h : korr l = 0) : l = replicate l.length 0 := by
  induction l with
  | nil => rfl
  | cons b l ih =>
    rw [korr] at h
    have hb : b = 0 := UInt8.toNat_inj.mp (by simp; omega)
    rw [hb, length_cons, replicate_succ, ← ih (by omega)]

theorem korr_singleton (b : UInt8) : korr [b] = b.toNat := by
  simp [korr]

theorem length_storeKeyLength (n : ℕ) : (storeKeyLength n).length = if n ≥ 255 then 3 else 1 := by
  unfold storeKeyLength
  by_cases h : n < 255
  · rw [if_pos h, if_neg (by omega)]
    rfl
  · rw [if_neg h, if_pos (by omega)]
    rfl

theorem length_spaceLength_pos (length n : ℕ) : 1 ≤ (spaceLength length n).length := by
  unfold spaceLength
  split <;> simp

theorem getKeyLength_of_stands (hn : n < 65536) (h : Stands mem src (storeKeyLength n ++ rest)) :
    getKeyLength mem src = (n, (storeKeyLength n).length) := by
  unfold storeKeyLength at h ⊢
  unfold getKeyLength
  split at h
  · next hlt =>
    have h0 : mem src = .ofNat n := h 0 _ rfl
    have hne : mem src ≠ 255 := by
      rw [h0]
      intro heq
      have := congrArg UInt8.toNat heq
      simp at this
      omega
    rw [if_pos hne, if_pos hlt, h0]
    simp
    omega
  · next hge =>
    have h0 : mem src = 255 := h 0 _ rfl
    have h1 : mem (src + 1) = .ofNat (n / 256) := h 1 _ rfl
    have h2 : mem (src + 2) = .ofNat n := h 2 _ rfl
    rw [if_neg (by simp [h0]), if_neg hge, h1, h2]
    simp
    omega

theorem getSpaceLength_of_stands {length : ℕ} (hlength : length < 32768)
    (hstrips : strips length n = true) (h : Stands mem src (spaceLength length n ++ rest))
    (hend : src + (spaceLength length n ++ rest).length ≤ srcEnd) (hrest : rest.length = n) :
    getSpaceLength mem length src srcEnd = some (n, (spaceLength length n).length) := by
  unfold strips at hstrips
  rw [decide_eq_true_iff] at hstrips
  unfold spaceLength at h hend ⊢
  unfold getSpaceLength
  split at h
  · next htwo =>
    have h0 : mem src = .ofNat (n % 128 + 128) := h 0 _ rfl
    have h1 : mem (src + 1) = .ofNat (n / 128) := h 1 _ rfl
    rw [if_pos htwo] at hend ⊢
    simp only [length_append, length_cons, length_nil] at hend ⊢
    rw [if_pos ⟨htwo.1, by rw [h0]; simp; omega⟩, h0, h1]
    simp
    omega
  · next hone =>
    have h0 : mem src = .ofNat n := h 0 _ rfl
    rw [if_neg hone] at hend ⊢
    simp only [length_append, length_cons, length_nil] at hend ⊢
    rw [if_neg (by rw [h0]; simp; omega), h0]
    simp
    omega

theorem checkSpaces_of_stands {length : ℕ} (hstrips : strips length bytes.length = true)
    (h : Stands mem src (spaceLength length bytes.length ++ bytes)) :
    checkSpaces mem length bytes.length true src =
      some (src + (spaceLength length bytes.length ++ bytes).length) := by
  unfold checkSpaces
  rw [if_pos hstrips, length_append, ← Nat.add_assoc]
  unfold spaceLength at h ⊢
  split at h
  · next htwo =>
    have h0 : mem src = .ofNat (bytes.length % 128 + 128) := h 0 _ rfl
    have h1 : mem (src + 1) = .ofNat (bytes.length / 128) := h 1 _ rfl
    simp [htwo, h0, h1]
  · next hone =>
    have h0 : mem src = .ofNat bytes.length := h 0 _ rfl
    rw [if_neg hone, if_neg hone, h0]
    simp

/-! ## Spaces -/

theorem eq_replicate_of_isSpace {l : List UInt8} (h : ∀ b ∈ l, isSpace b = true) :
    l = replicate l.length 32 :=
  eq_replicate_iff.mpr ⟨rfl, fun b hb => by simpa [isSpace] using h b hb⟩

theorem stripped_padded (hlen : bytes.length = c.length) :
    (if c.type = .skipEndspace then
        c.stripped bytes ++ replicate (c.length - (c.stripped bytes).length) 32
      else replicate (c.length - (c.stripped bytes).length) 32 ++ c.stripped bytes) =
      bytes := by
  unfold ColumnDef.stripped
  split
  · have hspaces := eq_replicate_of_isSpace (l := bytes.rtakeWhile isSpace)
      fun b hb => mem_rtakeWhile_imp hb
    have hall := rdropWhile_append_rtakeWhile (p := isSpace) (l := bytes)
    have hlength := congrArg List.length hall
    rw [length_append] at hlength
    rw [← hlen, show bytes.length - (bytes.rdropWhile isSpace).length =
      (bytes.rtakeWhile isSpace).length by omega, ← hspaces, hall]
  · have hspaces := eq_replicate_of_isSpace (l := bytes.takeWhile isSpace)
      fun b hb => mem_takeWhile_imp hb
    have hall := takeWhile_append_dropWhile (p := isSpace) (l := bytes)
    have hlength := congrArg List.length hall
    rw [length_append] at hlength
    rw [← hlen, show bytes.length - (bytes.dropWhile isSpace).length =
      (bytes.takeWhile isSpace).length by omega, ← hspaces, hall]

/-! ## One column -/

def packed (zeroString blobData : ℕ → UInt8) (c : ColumnDef) (cell : Cell) :
    Option Bool × List UInt8 :=
  packColumn zeroString blobData c cell (blobLength c cell)

theorem uintDiff_eq (hle : src ≤ srcEnd) (hlt : srcEnd < 4294967296) :
    uintDiff srcEnd src = srcEnd - src := by
  unfold uintDiff
  omega

theorem ulongDiff_eq (hle : src ≤ srcEnd) (hlt : srcEnd < 4294967296) :
    ulongDiff srcEnd src = srcEnd - src := by
  unfold ulongDiff
  omega

theorem varcharPackLength_cases (n : ℕ) : varcharPackLength n = 1 ∨ varcharPackLength n = 2 := by
  unfold varcharPackLength
  split
  · exact .inl rfl
  · exact .inr rfl

theorem korr_take_two (h : 2 ≤ bytes.length) :
    korr (bytes.take 2) < 65536 ∧
      [UInt8.ofNat (korr (bytes.take 2)), UInt8.ofNat (korr (bytes.take 2) / 256)] =
        bytes.take 2 := by
  obtain ⟨a, b, l, rfl⟩ : ∃ a b l, bytes = a :: b :: l := by
    match bytes, h with
    | a :: b :: l, _ => exact ⟨a, b, l, rfl⟩
  have ha := a.toNat_lt
  have hb := b.toNat_lt
  simp only [take_succ_cons, take_zero, korr, Nat.mul_zero, Nat.add_zero]
  refine ⟨by omega, ?_⟩
  have h0 : UInt8.ofNat (a.toNat + 256 * b.toNat) = a := UInt8.toNat_inj.mp (by simp)
  have h1 : UInt8.ofNat ((a.toNat + 256 * b.toNat) / 256) = b :=
    UInt8.toNat_inj.mp (by simp; omega)
  rw [h0, h1]

theorem Cell.Fits.length_of_ne (h : cell.Fits c) (hc : c.type ≠ .blob) :
    cell.bytes.length = c.length := by
  rw [h.length_eq, if_neg hc]

/-- Unpacking a column ends at `src` with the value of the column, and leaves the length `m`. -/
def Unpacks (mem blobData : ℕ → UInt8) (c : ColumnDef) (cell : Cell) (src m : ℕ)
    (o : Option UnpackedColumn) : Prop :=
  ∃ cell', o = some (cell', src, m) ∧ Restores mem blobData c cell cell'

section Column

variable {target : Cell} {flag : Option Bool}
  (hpacked : packed zeroString blobData c cell = (flag, bytes)) (hfits : cell.Fits c)

include hpacked hfits

theorem exists_varchar_header (hc : c.type = .varchar) (hvalid : c.Valid)
    (hstands : Stands mem src bytes) :
    ∃ header, bytes = header ++ (cell.bytes.drop (varcharPackLength (c.length - 1))).take
          (korr (cell.bytes.take (varcharPackLength (c.length - 1)))) ∧
      (if varcharPackLength (c.length - 1) = 1 then ((mem src).toNat, 1)
        else getKeyLength mem src) =
        (korr (cell.bytes.take (varcharPackLength (c.length - 1))), header.length) ∧
      (if varcharPackLength (c.length - 1) = 1 then [mem src]
        else [UInt8.ofNat (korr (cell.bytes.take (varcharPackLength (c.length - 1)))),
          UInt8.ofNat (korr (cell.bytes.take (varcharPackLength (c.length - 1))) / 256)]) =
        cell.bytes.take (varcharPackLength (c.length - 1)) := by
  have hlen := hfits.length_of_ne (by rw [hc]; decide)
  obtain ⟨hpos, hmax⟩ := hvalid.varchar hc
  simp only [packed, packColumn, hc] at hpacked
  by_cases hone : varcharPackLength (c.length - 1) = 1
  · simp only [hone, if_true] at hpacked ⊢
    obtain ⟨-, rfl⟩ := Prod.mk.inj hpacked
    obtain ⟨b, bs, hbytes⟩ : ∃ b bs, cell.bytes = b :: bs :=
      exists_cons_of_ne_nil fun hnil => by simp [hnil] at hlen; omega
    have hhead : mem src = b := by
      rw [hbytes] at hstands
      exact hstands 0 b rfl
    refine ⟨cell.bytes.take 1, rfl, ?_, ?_⟩
    · rw [hbytes, hhead, take_succ_cons, take_zero, korr_singleton, length_singleton]
    · rw [hbytes, hhead, take_succ_cons, take_zero]
  · have hlarge : ¬ c.length - 1 < 256 := fun hlt => hone (if_pos hlt)
    have htwo := (varcharPackLength_cases (c.length - 1)).resolve_left hone
    have hlong : 2 ≤ cell.bytes.length := by omega
    have hkorr := korr_take_two hlong
    simp only [htwo, if_neg (show ¬ 2 = 1 by decide)] at hpacked ⊢
    obtain ⟨-, rfl⟩ := Prod.mk.inj hpacked
    exact ⟨_, rfl, getKeyLength_of_stands hkorr.1 hstands, hkorr.2⟩

variable (hstands : Stands mem src bytes) (hend : src + bytes.length + m ≤ srcEnd)

include hstands hend

theorem unpackVarchar_spec (hc : c.type = .varchar) (hvalid : c.Valid) :
    Unpacks mem blobData c cell (src + bytes.length) m
      (unpackVarchar mem srcEnd c target src (c.minLength + m)) := by
  have hlen := hfits.length_of_ne (by rw [hc]; decide)
  have hvarchar := hfits.varchar hc
  obtain ⟨hpos, hmax⟩ := hvalid.varchar hc
  have hmin : c.minLength = 1 := by rw [ColumnDef.minLength, hc]
  have hsub (k : ℕ) (hk : k ≤ c.length) : uintSub c.length k = c.length - k := by
    unfold uintSub
    omega
  obtain ⟨header, rfl, hlength, hbytes⟩ := exists_varchar_header hpacked hfits hc hvalid hstands
  unfold unpackVarchar Unpacks Restores
  simp only [hc]
  unfold varcharLength at hvarchar ⊢
  rw [hsub 1 hpos]
  generalize varcharPackLength (c.length - 1) = pack at *
  rw [hlength]
  rw [hbytes]
  generalize korr (cell.bytes.take pack) = length at *
  have hdata : ((cell.bytes.drop pack).take length).length = length := by
    rw [length_take, length_drop]
    omega
  have hslice : slice mem (src + header.length) length = (cell.bytes.drop pack).take length :=
    (stands_append.mp hstands).2.slice_eq hdata.symm
  rw [length_append, hdata] at hend ⊢
  rw [hsub pack (by omega), if_neg (by omega), if_neg (by omega), hslice, hmin,
    Nat.add_sub_cancel_left, ← Nat.add_assoc]
  refine ⟨_, rfl, ?_⟩
  rw [← take_add, take_append_of_le_length (by rw [length_take]; omega),
    take_take, Nat.min_self]

variable (hlt : srcEnd < 4294967296)

include hlt

theorem unpackNormal_spec (hc : c.type = .normal) :
    Unpacks mem blobData c cell (src + bytes.length) m
      (unpackNormal mem srcEnd c target src (c.minLength + m)) := by
  have hlen := hfits.length_of_ne (by rw [hc]; decide)
  simp only [packed, packColumn, hc] at hpacked
  obtain ⟨-, rfl⟩ := Prod.mk.inj hpacked
  have hmin : c.minLength = c.length := by rw [ColumnDef.minLength, hc]
  have hfit : ¬ c.length + m > srcEnd - src := by omega
  simp only [Unpacks, Restores, hc]
  rw [unpackNormal, hmin, uintDiff_eq (by omega) hlt, if_neg hfit, Nat.add_sub_cancel_left, hlen]
  exact ⟨_, rfl, hstands.slice_eq hlen.symm⟩

theorem unpackStripped_spec (hc : c.type = .skipEndspace ∨ c.type = .skipPrespace)
    (hvalid : c.Valid) (hstrips : strips c.length (c.stripped cell.bytes).length = true) :
    Unpacks mem blobData c cell (src + bytes.length) m
      (unpackStripped mem srcEnd c target src (c.minLength + m)) := by
  have hlen := hfits.length_of_ne (by rcases hc with hc | hc <;> rw [hc] <;> decide)
  have hmin : c.minLength = 1 := by rcases hc with hc | hc <;> rw [ColumnDef.minLength, hc]
  have hbytes :
      spaceLength c.length (c.stripped cell.bytes).length ++ c.stripped cell.bytes = bytes := by
    rcases hc with hc | hc <;> simp only [packed, packColumn, hc, hstrips, if_true] at hpacked <;>
      exact (Prod.mk.inj hpacked).2
  have hrestores (x : Cell) : Restores mem blobData c cell x ↔ x.bytes = cell.bytes := by
    rcases hc with hc | hc <;> simp only [Restores, hc]
  have hpadded := stripped_padded hlen
  subst hbytes
  have hread := getSpaceLength_of_stands (hvalid.spaces hc).2 hstrips hstands
    (Nat.le_trans (Nat.le_add_right _ m) hend) rfl
  have hshort : (c.stripped cell.bytes).length < c.length := by
    unfold strips at hstrips
    rw [decide_eq_true_iff] at hstrips
    omega
  rw [length_append] at hend ⊢
  generalize c.stripped cell.bytes = bytes at *
  have hslice := (stands_append.mp hstands).2.slice_eq rfl
  have hfit : ¬ (bytes.length ≥ c.length ∨ 1 + m - 1 + bytes.length >
      uintDiff srcEnd (src + (spaceLength c.length bytes.length).length)) := by
    rw [uintDiff_eq (by omega) hlt]
    omega
  unfold unpackStripped Unpacks
  simp only [hread, Option.bind_eq_bind, Option.bind_some, hmin, if_neg hfit, hslice, hpadded,
    hrestores]
  rw [Nat.add_sub_cancel_left, ← Nat.add_assoc]
  exact ⟨_, rfl, rfl⟩

omit hpacked in
theorem unpackWhole_spec (hc : c.type = .skipZero ∨ c.type = .skipEndspace ∨ c.type = .skipPrespace)
    (hwhole : bytes = cell.bytes) :
    Unpacks mem blobData c cell (src + bytes.length) m
      (unpackWhole mem srcEnd c target src (c.minLength + m)) := by
  have hlen := hfits.length_of_ne (by rcases hc with hc | hc | hc <;> rw [hc] <;> decide)
  have hmin : (if c.type = .skipZero then c.minLength + m else c.minLength + m - 1) = m := by
    rcases hc with hc | hc | hc <;> simp [ColumnDef.minLength, hc]
  have hrestores (x : Cell) : Restores mem blobData c cell x ↔ x.bytes = cell.bytes := by
    rcases hc with hc | hc | hc <;> simp only [Restores, hc]
  subst hwhole
  have hfit : ¬ m + c.length > srcEnd - src := by omega
  unfold unpackWhole Unpacks
  simp only [hmin, hrestores]
  rw [uintDiff_eq (by omega) hlt, if_neg hfit, hlen]
  exact ⟨_, rfl, hstands.slice_eq hlen.symm⟩

theorem unpackBlob_spec (hc : c.type = .blob) (hblob : blobLength c cell ≠ 0) :
    Unpacks mem blobData c cell (src + bytes.length) m
      (unpackBlob mem srcEnd c src (c.minLength + m)) := by
  have hlen := hfits.length_eq
  rw [if_pos hc] at hlen
  have hmin : c.minLength = 0 := by rw [ColumnDef.minLength, hc]
  simp only [packed, packColumn, hc, if_neg hblob] at hpacked
  obtain ⟨-, rfl⟩ := Prod.mk.inj hpacked
  rw [length_append, length_slice, hlen] at hend ⊢
  obtain ⟨hsize, hdata⟩ := stands_append.mp hstands
  have hslice := hsize.slice_eq hlen.symm
  have hblob' : calcBlobLength (c.length - sizeofCharPtr) cell.bytes = blobLength c cell := rfl
  simp only [unpackBlob, Unpacks, Restores, hc]
  rw [hslice, hmin, Nat.zero_add, ulongDiff_eq (by omega) hlt, if_neg (by omega),
    ← Nat.add_assoc]
  refine ⟨_, rfl, rfl, ?_⟩
  rw [hlen] at hdata
  exact hdata.slice_eq (length_slice _ _ _).symm

end Column

theorem packed_spaces (zeroString blobData : ℕ → UInt8) (cell : Cell)
    (hc : c.type = .skipEndspace ∨ c.type = .skipPrespace) :
    packed zeroString blobData c cell =
      if strips c.length (c.stripped cell.bytes).length then
        (some true, spaceLength c.length (c.stripped cell.bytes).length ++ c.stripped cell.bytes)
      else (some false, cell.bytes) := by
  rcases hc with hc | hc <;> simp only [packed, packColumn, hc]

theorem bytes_of_blobLength_eq_zero (hc : c.type = .blob) (hvalid : c.Valid) (hfits : cell.Fits c)
    (h : blobLength c cell = 0) : cell.bytes = replicate (c.length - sizeofCharPtr) 0 := by
  have hlen := hfits.length_eq
  obtain ⟨hmin, hmax⟩ := hvalid.blob hc
  rw [if_pos hc] at hlen
  rw [blobLength, calcBlobLength, if_pos (by omega), ← hlen, take_length] at h
  rw [← hlen]
  exact korr_eq_zero h

theorem slice_eq_replicate (h : ∀ i < n, mem i = 0) : slice mem 0 n = replicate n 0 := by
  apply ext_getElem (by rw [length_slice, length_replicate])
  intro i hi _
  rw [length_slice] at hi
  simp [slice, h i hi]

section Column

variable {flagged : Bool} {flag : Option Bool}
  (hpacked : packed zeroString blobData c cell = (flag, bytes)) (hfits : cell.Fits c)
  (hflag : ∀ b, flag = some b → flagged = b) (hstands : Stands mem src bytes)

include hpacked hfits hflag hstands

theorem unpackColumn_spec (target : Cell) (hvalid : c.Valid) (hzero : ∀ i < 16, zeroString i = 0)
    (hend : src + bytes.length + m ≤ srcEnd) (hlt : srcEnd < 4294967296) :
    Unpacks mem blobData c cell (src + bytes.length) m
      (unpackColumn mem srcEnd c target flagged src (c.minLength + m)) := by
  have hspaces (hc : c.type = .skipEndspace ∨ c.type = .skipPrespace) :
      Unpacks mem blobData c cell (src + bytes.length) m
        (if flagged then unpackStripped mem srcEnd c target src (c.minLength + m)
          else unpackWhole mem srcEnd c target src (c.minLength + m)) := by
    have hcolumn := packed_spaces zeroString blobData cell hc
    rw [hpacked] at hcolumn
    by_cases hstrips : strips c.length (c.stripped cell.bytes).length = true
    · rw [if_pos hstrips] at hcolumn
      rw [if_pos (hflag true (Prod.mk.inj hcolumn).1)]
      exact unpackStripped_spec hpacked hfits hstands hend hlt hc hvalid hstrips
    · rw [if_neg hstrips] at hcolumn
      rw [if_neg (by simp [hflag false (Prod.mk.inj hcolumn).1])]
      exact unpackWhole_spec hfits hstands hend hlt (.inr hc) (Prod.mk.inj hcolumn).2
  unfold unpackColumn
  split
  · next hc => exact unpackNormal_spec hpacked hfits hstands hend hlt hc
  · next hc => exact unpackVarchar_spec hpacked hfits hstands hend hc hvalid
  · next hc =>
    have hcolumn := hpacked
    simp only [packed, packColumn, hc] at hcolumn
    split at hcolumn
    · next hblob =>
      obtain ⟨rfl, rfl⟩ := Prod.mk.inj hcolumn
      have hmin : c.minLength = 0 := by rw [ColumnDef.minLength, hc]
      have hbytes := bytes_of_blobLength_eq_zero hc hvalid hfits hblob
      simp only [Unpacks, Restores, hc, if_pos (hflag true rfl), hmin, Nat.zero_add]
      exact ⟨_, rfl, hbytes.symm, by rw [hblob, slice_zero, slice_zero]⟩
    · next hblob =>
      rw [if_neg (by simp [hflag false (Prod.mk.inj hcolumn).1.symm])]
      exact unpackBlob_spec hpacked hfits hstands hend hlt hc hblob
  · next hc =>
    have hcolumn := hpacked
    simp only [packed, packColumn, hc] at hcolumn
    split at hcolumn
    · next hzeros =>
      obtain ⟨rfl, rfl⟩ := Prod.mk.inj hcolumn
      have hmin : c.minLength = 0 := by rw [ColumnDef.minLength, hc]
      have hwidth := hvalid.zeros hc
      have hbytes := slice_eq_replicate fun i (hi : i < c.length) => hzero i (by omega)
      simp only [Unpacks, Restores, hc, if_pos (hflag true rfl), hmin, Nat.zero_add]
      exact ⟨_, rfl, by rw [hzeros, hbytes]⟩
    · rw [if_neg (by simp [hflag false (Prod.mk.inj hcolumn).1.symm])]
      exact unpackWhole_spec hfits hstands hend hlt (.inl hc) (Prod.mk.inj hcolumn).2.symm
  · next hc => exact hspaces (.inl hc)
  · next hc => exact hspaces (.inr hc)

theorem checkColumn_spec {mem' : ℕ → UInt8} (hrestores : Restores mem' blobData c cell cell') :
    checkColumn zeroString mem c cell' flagged src = some (src + bytes.length) := by
  have hspaces (hc : c.type = .skipEndspace ∨ c.type = .skipPrespace) :
      checkColumn zeroString mem c cell' flagged src = some (src + bytes.length) := by
    have hlen := hfits.length_of_ne (by rcases hc with hc | hc <;> rw [hc] <;> decide)
    have hbytes : cell'.bytes = cell.bytes := by
      rcases hc with hc | hc <;> simpa only [Restores, hc] using hrestores
    have hcheck : checkColumn zeroString mem c cell' flagged src =
        checkSpaces mem c.length (c.stripped cell.bytes).length flagged src := by
      rcases hc with hc | hc <;> simp only [checkColumn, hc, hbytes]
    rw [hcheck]
    rw [packed_spaces zeroString blobData cell hc] at hpacked
    split at hpacked
    · next hstrips =>
      obtain ⟨rfl, rfl⟩ := Prod.mk.inj hpacked
      rw [hflag true rfl]
      exact checkSpaces_of_stands hstrips hstands
    · next hstrips =>
      obtain ⟨rfl, rfl⟩ := Prod.mk.inj hpacked
      rw [checkSpaces, if_neg hstrips, hlen]
  cases hc : c.type with
  | normal =>
    obtain ⟨-, rfl⟩ := Prod.mk.inj hpacked
    simp only [checkColumn, hc, hfits.length_of_ne (by rw [hc]; decide)]
  | blob =>
    have hlen := hfits.length_eq
    rw [if_pos hc] at hlen
    simp only [Restores, hc] at hrestores
    have hlength : calcBlobLength (c.length - sizeofCharPtr) cell'.bytes = blobLength c cell := by
      rw [hrestores.1, blobLength]
    simp only [packed, packColumn, hc] at hpacked
    simp only [checkColumn, hc, hlength]
    split at hpacked
    · next hblob =>
      obtain ⟨rfl, rfl⟩ := Prod.mk.inj hpacked
      rw [hflag true rfl]
      simp [hblob]
    · next hblob =>
      obtain ⟨rfl, rfl⟩ := Prod.mk.inj hpacked
      simp [hblob, hlen, Nat.add_assoc]
  | skipZero =>
    have hlen := hfits.length_of_ne (by rw [hc]; decide)
    have hbytes : cell'.bytes = cell.bytes := by simpa only [Restores, hc] using hrestores
    simp only [packed, packColumn, hc] at hpacked
    simp only [checkColumn, hc, hbytes]
    split at hpacked
    · next hzeros =>
      obtain ⟨rfl, rfl⟩ := Prod.mk.inj hpacked
      rw [hflag true rfl, if_pos hzeros]
      rfl
    · next hzeros =>
      obtain ⟨rfl, rfl⟩ := Prod.mk.inj hpacked
      rw [if_neg hzeros, hlen]
  | skipEndspace => exact hspaces (.inl hc)
  | skipPrespace => exact hspaces (.inr hc)
  | varchar =>
    have hlen := hfits.length_of_ne (by rw [hc]; decide)
    have hvarchar := hfits.varchar hc
    simp only [Restores, hc] at hrestores
    have hheader : cell'.bytes.take (varcharPackLength (c.length - 1)) =
        cell.bytes.take (varcharPackLength (c.length - 1)) := by
      have htake := congrArg (List.take (varcharPackLength (c.length - 1))) hrestores
      rwa [take_take, take_take, varcharLength, Nat.min_eq_left (by omega)] at htake
    simp only [packed, packColumn, hc] at hpacked
    simp only [checkColumn, hc]
    unfold varcharLength at hvarchar
    split at hpacked
    · next hone =>
      obtain ⟨-, rfl⟩ := Prod.mk.inj hpacked
      rw [hone] at hheader hvarchar
      simp only [hone, if_true, hheader, length_append, length_take, length_drop]
      congr 1
      omega
    · next hone =>
      obtain ⟨-, rfl⟩ := Prod.mk.inj hpacked
      rw [(varcharPackLength_cases _).resolve_left hone] at hheader hvarchar
      simp only [hone, if_false, hheader, length_append, length_take, length_drop,
        length_storeKeyLength]
      congr 1
      omega

end Column

/-! ## Writing a row -/

section

variable (zeroString blobData : ℕ → UInt8) (row : List (ColumnDef × Cell))

def rowBits : List Bool :=
  row.filterMap fun (c, cell) => (packed zeroString blobData c cell).1

def rowBytes : List UInt8 :=
  row.flatMap fun (c, cell) => (packed zeroString blobData c cell).2

end

variable {row : List (ColumnDef × Cell)} {x : ColumnDef × Cell} {ns : List Bool} {room : ℕ}
  {data : List UInt8}

theorem rowBits_cons : rowBits zeroString blobData (x :: row) =
    (packed zeroString blobData x.1 x.2).1.toList ++ rowBits zeroString blobData row := by
  unfold rowBits
  cases h : (packed zeroString blobData x.1 x.2).1 <;> simp [h]

theorem rowBytes_cons : rowBytes zeroString blobData (x :: row) =
    (packed zeroString blobData x.1 x.2).2 ++ rowBytes zeroString blobData row := rfl

theorem isSome_packed : (packed zeroString blobData c cell).1.isSome = c.type.hasBit := by
  cases hc : c.type <;> simp only [packed, packColumn, hc, FieldType.hasBit] <;>
    first | rfl | split <;> rfl

theorem length_rowBits :
    (rowBits zeroString blobData row).length = (row.map Prod.fst).countP (·.type.hasBit) := by
  induction row with
  | nil => rfl
  | cons x row ih =>
    have hbit : (packed zeroString blobData x.1 x.2).1.isSome = x.1.type.hasBit := isSome_packed
    rw [rowBits_cons, length_append, ih, map_cons, countP_cons, ← hbit]
    cases (packed zeroString blobData x.1 x.2).1 <;> simp [Nat.add_comm]

theorem packColumn_eq_packed (h : c.type = .blob → n = blobLength c cell) :
    packColumn zeroString blobData c cell n = packed zeroString blobData c cell := by
  by_cases hc : c.type = .blob
  · rw [packed, h hc]
  · unfold packed packColumn
    split <;> first | rfl | contradiction

theorem Packer.blobs_nextBit (s : Packer) : s.nextBit.blobs = s.blobs := by
  unfold Packer.nextBit
  dsimp only
  split <;> rfl

/-- The bits `ns` and the columns `data` are written so far. -/
def Packing (room : ℕ) (ns : List Bool) (data : List UInt8) (s : Packer) : Prop :=
  Writing false room ns data s.mem s.packpos s.flag s.bit s.dst

theorem mask_ge {e : ℕ} (he : e < 8) : (1 : BitVec 32) <<< e <<< (1 : ℕ) ≥ 256 ↔ e + 1 = 8 := by
  interval_cases e <;> decide

theorem mask_ne_one {e : ℕ} (he : e < 8) : (1 : BitVec 32) <<< e ≠ 1 ↔ e ≠ 0 := by
  interval_cases e <;> decide

theorem getLsbD_not_mask {e b : ℕ} (he : e < 8) (hb : b < e) :
    (~~~((1 : BitVec 32) <<< e - 1)).getLsbD b = false := by
  interval_cases e <;> interval_cases b <;> decide

theorem Packing.nextBit {s : Packer} {flag : BitVec 32} {b : Bool} (h : Packing room ns data s)
    (hroom : ns.length / 8 < room) (hflag : Filled false ns b flag) :
    Packing room (ns ++ [b]) data { s with flag := flag }.nextBit := by
  have hfull := mask_ge (Nat.mod_lt ns.length (show 0 < 8 by decide))
  rw [← h.collecting.mask_eq] at hfull
  unfold Packer.nextBit
  simp only [hfull]
  split
  · next hfull => exact h.bit_full hflag hfull hroom fun b _ => BitVec.getLsbD_zero
  · next hpart => exact h.bit hflag hpart

theorem Packing.step {s : Packer} (h : Packing room ns data s)
    (hblobs : s.blobs = blobLengths (x :: row))
    (hroom : (ns ++ (packed zeroString blobData x.1 x.2).1.toList).length ≤ 8 * room) :
    Packing room (ns ++ (packed zeroString blobData x.1 x.2).1.toList)
        (data ++ (packed zeroString blobData x.1 x.2).2) (s.step zeroString blobData x) ∧
      (s.step zeroString blobData x).blobs = blobLengths row := by
  have hpacked : packColumn zeroString blobData x.1 x.2 (s.blobs.headD 0) =
      packed zeroString blobData x.1 x.2 := by
    refine packColumn_eq_packed fun hc => ?_
    simp [hblobs, blobLengths, hc, blobLength]
  have hrest : (if x.1.type = .blob then s.blobs.tail else s.blobs) = blobLengths row := by
    split
    · next hc => simp [hblobs, blobLengths, hc]
    · next hc => simp [hblobs, blobLengths, hc]
  unfold Packer.step
  simp only [hpacked, hrest]
  generalize packed zeroString blobData x.1 x.2 = p at *
  obtain ⟨flagged, bytes⟩ := p
  cases flagged with
  | none =>
    rw [Option.toList_none, append_nil] at hroom ⊢
    exact ⟨h.append (by omega) bytes, rfl⟩
  | some b =>
    rw [Option.toList_some, length_append, length_singleton] at hroom
    have hroom' : ns.length / 8 < room := by omega
    have hbytes : Packing room ns (data ++ bytes)
        { s with
          mem := write s.mem s.dst bytes
          dst := s.dst + bytes.length
          blobs := blobLengths row } := h.append (Nat.le_of_lt hroom') bytes
    cases b with
    | true => exact ⟨hbytes.nextBit hroom' h.collecting.or, Packer.blobs_nextBit _⟩
    | false => exact ⟨hbytes.nextBit hroom' h.collecting.same, Packer.blobs_nextBit _⟩

theorem Packing.run {s : Packer} (h : Packing room ns data s) (hblobs : s.blobs = blobLengths row)
    (hroom : (ns ++ rowBits zeroString blobData row).length ≤ 8 * room) :
    Packing room (ns ++ rowBits zeroString blobData row)
      (data ++ rowBytes zeroString blobData row)
      (row.foldl (Packer.step zeroString blobData) s) := by
  induction row generalizing s ns data with
  | nil => simpa [rowBits, rowBytes] using h
  | cons x row ih =>
    rw [rowBits_cons, ← append_assoc] at hroom ⊢
    rw [rowBytes_cons, ← append_assoc]
    have hroom' := hroom
    rw [length_append] at hroom'
    obtain ⟨hstep, hrest⟩ := h.step hblobs (Nat.le_trans (Nat.le_add_right _ _) hroom')
    exact ih hstep hrest hroom

variable (share : Share) (checksum : UInt8)

def checksumBytes : List UInt8 :=
  if share.calcChecksum then [checksum] else []

theorem length_checksumBytes :
    (checksumBytes share checksum).length = if share.calcChecksum then 1 else 0 := by
  unfold checksumBytes
  split <;> rfl

def packedRow (zeroString blobData : ℕ → UInt8) (record : List Cell) : List UInt8 :=
  rowBytes zeroString blobData (share.columns.zip record) ++ checksumBytes share checksum

variable {share : Share} {checksum : UInt8} {record target : List Cell}

section

variable (zeroString blobData : ℕ → UInt8) (hrecord : record.length = share.columns.length)

include hrecord

theorem packBits_eq :
    share.packBits =
      ((rowBits zeroString blobData (share.columns.zip record)).length + 7) / 8 := by
  rw [length_rowBits, map_fst_zip (by omega), Share.packBits]

theorem length_nil_append_rowBits_le :
    ([] ++ rowBits zeroString blobData (share.columns.zip record)).length ≤
      8 * share.packBits := by
  rw [nil_append, packBits_eq zeroString blobData hrecord]
  omega

end

theorem recPack_spec (checksum : UInt8) (zeroString blobData : ℕ → UInt8)
    (hrecord : record.length = share.columns.length) (mem : ℕ → UInt8) :
    BitImage false share.packBits (rowBits zeroString blobData (share.columns.zip record))
        (packedRow share checksum zeroString blobData record)
        (recPack share checksum zeroString blobData (blobLengths (share.columns.zip record)) mem
          record).1 ∧
      (recPack share checksum zeroString blobData (blobLengths (share.columns.zip record)) mem
          record).2 =
        (share.packBits + (packedRow share checksum zeroString blobData record).length) %
          4294967296 := by
  have hroom := packBits_eq zeroString blobData hrecord
  have hinit : Packing share.packBits [] []
      ⟨mem, share.packBits, 0, 0, 1, blobLengths (share.columns.zip record)⟩ :=
    writing_start fun b _ => BitVec.getLsbD_zero
  have hrun := hinit.run rfl (length_nil_append_rowBits_le zeroString blobData hrecord)
  rw [nil_append, nil_append] at hrun
  unfold recPack packedRow checksumBytes
  dsimp only
  generalize List.foldl _ _ _ = s at *
  have himage := Writing.image hrun hroom
  simp only [← mask_ne_one (Nat.mod_lt _ (show 0 < 8 by decide)), ← hrun.collecting.mask_eq]
    at himage
  rw [hrun.dst_eq]
  split
  · refine ⟨himage.append [checksum], ?_⟩
    rw [length_append, length_singleton, Nat.add_assoc]
  · rw [append_nil]
    exact ⟨himage, rfl⟩

/-! ## Reading a row -/

/-- The reader is at a bit. -/
structure BitReader.At (mem : ℕ → UInt8) (j : ℕ) (r : BitReader) : Prop where
  packpos_eq : r.packpos = j / 8
  flag_eq : r.flag = (mem (j / 8)).toBitVec.setWidth 32
  bit_eq : r.bit = (1 : BitVec 32) <<< (j % 8)

namespace BitReader.At

variable {r : BitReader} {j : ℕ}

theorem init (mem : ℕ → UInt8) : (BitReader.init mem).At mem 0 :=
  ⟨rfl, rfl, rfl⟩

theorem next (h : r.At mem j) : (r.next mem).At mem (j + 1) := by
  have hfull := mask_ge (Nat.mod_lt j (show 0 < 8 by decide))
  rw [← h.bit_eq] at hfull
  unfold BitReader.next
  simp only [hfull]
  split
  · next hfull =>
    have hdiv : (j + 1) / 8 = j / 8 + 1 := by omega
    have hmod : (j + 1) % 8 = 0 := by omega
    refine ⟨?_, ?_, ?_⟩
    · rw [hdiv, ← h.packpos_eq]
    · rw [hdiv, ← h.packpos_eq]
    · rw [hmod]
      rfl
  · next hpart =>
    have hdiv : (j + 1) / 8 = j / 8 := by omega
    have hmod : (j + 1) % 8 = j % 8 + 1 := by omega
    refine ⟨?_, ?_, ?_⟩
    · rw [hdiv, ← h.packpos_eq]
    · rw [hdiv, h.flag_eq]
    · rw [hmod, h.bit_eq, BitVec.shiftLeft_add]

theorem isSet_eq (h : r.At mem ns.length) {b : Bool} {rest : List Bool}
    (himage : BitImage false room (ns ++ b :: rest) data mem) : r.isSet = b := by
  have hlt := himage.length_le
  rw [length_append, length_cons] at hlt
  have hget : (ns ++ b :: rest)[ns.length]? = some b := by simp
  rw [isSet, Bool.eq_iff_iff, decide_eq_true_iff, h.flag_eq, h.bit_eq,
    byte_and_mask_ne_zero (Nat.mod_lt _ (by decide)), himage.bits.getLsbD_eq (by omega),
    bitAt_of_getElem? hget]

theorem pass (h : r.At mem ns.length) {flagged : Option Bool} {rest : List Bool}
    (himage : BitImage false room (ns ++ (flagged.toList ++ rest)) data mem) :
    (∀ b, flagged = some b → r.isSet = b) ∧
      (if flagged.isSome then r.next mem else r).At mem (ns ++ flagged.toList).length := by
  cases flagged with
  | none =>
    refine ⟨fun b hb => by simp at hb, ?_⟩
    rw [Option.toList_none, append_nil]
    exact h
  | some b =>
    refine ⟨fun b' hb => ?_, ?_⟩
    · obtain rfl := Option.some.inj hb
      exact h.isSet_eq himage
    · rw [Option.toList_some, length_append]
      exact h.next

theorem atEnd_of_image (h : r.At mem ns.length) (himage : BitImage false room ns data mem)
    (hroom : room = (ns.length + 7) / 8) : r.atEnd = true := by
  rw [atEnd, decide_eq_true_iff]
  by_cases hstart : ns.length % 8 = 0
  · left
    rw [h.bit_eq, hstart]
    rfl
  · right
    refine BitVec.eq_of_getLsbD_eq fun b hb => ?_
    have hzero : (0 : BitVec 32).getLsbD b = false := BitVec.getLsbD_zero
    rw [BitVec.getLsbD_and, h.flag_eq, h.bit_eq, BitVec.getLsbD_setWidth, hzero,
      Bool.and_eq_false_iff]
    by_cases hused : b < ns.length % 8
    · exact .inr (getLsbD_not_mask (Nat.mod_lt _ (by decide)) hused)
    · left
      by_cases hbyte : b < 8
      · rw [himage.bits _ (by omega) b hbyte, bitAt_of_le (by omega), Bool.and_false]
      · rw [BitVec.getLsbD_of_ge _ _ (by omega), Bool.and_false]

end BitReader.At

theorem minLength_le_packed (hvalid : c.Valid) (hfits : cell.Fits c) :
    c.minLength ≤ (packed zeroString blobData c cell).2.length := by
  have hlen := hfits.length_eq
  cases hc : c.type with
  | normal =>
    rw [hc, if_neg (by decide)] at hlen
    simp only [ColumnDef.minLength, packed, packColumn, hc, hlen, le_refl]
  | skipZero | blob => simp only [ColumnDef.minLength, hc, Nat.zero_le]
  | skipEndspace | skipPrespace =>
    have hpos := (hvalid.spaces (by simp [hc])).1
    rw [hc] at hlen
    simp only [ColumnDef.minLength, packed, packColumn, hc]
    split
    · rw [length_append]
      have hspace := length_spaceLength_pos c.length (c.stripped cell.bytes).length
      omega
    · exact hlen ▸ hpos
  | varchar =>
    have hpos := (hvalid.varchar hc).1
    rw [hc, if_neg (by decide)] at hlen
    simp only [ColumnDef.minLength, packed, packColumn, hc]
    split
    · rw [length_append, length_take]
      omega
    · rw [length_append, length_storeKeyLength]
      split <;> omega

def RecordFits (columns : List ColumnDef) (record : List Cell) : Prop :=
  List.Forall₂ (fun c cell => c.Valid ∧ cell.Fits c) columns record

def RecordRestores (mem blobData : ℕ → UInt8) (columns : List ColumnDef)
    (record record' : List Cell) : Prop :=
  List.Forall₂ (fun x cell' => Restores mem blobData x.1 x.2 cell') (columns.zip record) record'

variable {columns : List ColumnDef}

theorem sum_minLength_le (zeroString blobData : ℕ → UInt8) (hfits : RecordFits columns record) :
    (columns.map ColumnDef.minLength).sum ≤
      (rowBytes zeroString blobData (columns.zip record)).length := by
  induction hfits with
  | nil => exact le_rfl
  | cons h _ ih =>
    rw [map_cons, zip_cons_cons, rowBytes_cons, length_append]
    exact Nat.add_le_add (minLength_le_packed h.1 h.2) ih

/-- A reader of a row with the bits `ns` and the bytes `data` is before the columns of `row`, with
`rest` behind them. -/
structure Reading (zeroString blobData mem : ℕ → UInt8) (room : ℕ) (ns : List Bool)
    (data : List UInt8) (row : List (ColumnDef × Cell)) (rest : List UInt8) (r : BitReader)
    (src : ℕ) : Prop where
  image : BitImage false room ns data mem
  bits : ∃ before, ns = before ++ rowBits zeroString blobData row ∧ r.At mem before.length
  bytes : ∃ before, data = before ++ (rowBytes zeroString blobData row ++ rest) ∧
    src = room + before.length

namespace Reading

variable {r : BitReader}

theorem init (himage : BitImage false room (rowBits zeroString blobData row)
    (rowBytes zeroString blobData row ++ rest) mem) :
    Reading zeroString blobData mem room (rowBits zeroString blobData row)
      (rowBytes zeroString blobData row ++ rest) row rest (.init mem) room where
  image := himage
  bits := ⟨[], rfl, .init mem⟩
  bytes := ⟨[], rfl, rfl⟩

theorem cons (h : Reading zeroString blobData mem room ns data (x :: row) rest r src) :
    (∀ b, (packed zeroString blobData x.1 x.2).1 = some b → r.isSet = b) ∧
      Stands mem src (packed zeroString blobData x.1 x.2).2 ∧
      Reading zeroString blobData mem room ns data row rest
        (if x.1.type.hasBit then r.next mem else r)
        (src + (packed zeroString blobData x.1 x.2).2.length) := by
  have himage := h.image
  obtain ⟨before, rfl, hat⟩ := h.bits
  obtain ⟨front, rfl, rfl⟩ := h.bytes
  rw [rowBits_cons, rowBytes_cons, append_assoc] at himage ⊢
  obtain ⟨hflag, hnext⟩ := hat.pass himage
  rw [isSome_packed] at hnext
  refine ⟨hflag, (stands_append.mp (stands_append.mp himage.stands).2).1, himage, ?_, ?_⟩
  · exact ⟨_, (append_assoc _ _ _).symm, hnext⟩
  · exact ⟨_, (append_assoc _ _ _).symm, by rw [length_append, Nat.add_assoc]⟩

theorem src_add (h : Reading zeroString blobData mem room ns data row rest r src) :
    src + (rowBytes zeroString blobData row).length + rest.length = room + data.length := by
  obtain ⟨front, rfl, rfl⟩ := h.bytes
  simp only [length_append]
  omega

theorem atEnd (h : Reading zeroString blobData mem room ns data [] rest r src)
    (hroom : room = (ns.length + 7) / 8) : r.atEnd = true := by
  obtain ⟨before, rfl, hat⟩ := h.bits
  have himage := h.image
  have hnil : before ++ rowBits zeroString blobData [] = before := append_nil before
  rw [hnil] at himage hroom
  exact hat.atEnd_of_image himage hroom

theorem unpack {s : Unpacker}
    (h : Reading zeroString blobData mem room ns data (columns.zip record) rest s.bits s.src)
    (hfits : RecordFits columns record) (htarget : target.length = columns.length)
    (hzero : ∀ i < 16, zeroString i = 0)
    (hmin : s.minPackLength = (columns.map ColumnDef.minLength).sum + rest.length)
    (hend : room + data.length = srcEnd) (hlt : srcEnd < 4294967296) :
    ∃ s', (columns.zip target).foldlM (Unpacker.step mem srcEnd) s = some s' ∧
      Reading zeroString blobData mem room ns data [] rest s'.bits s'.src ∧
      s'.dst = s.dst + (columns.map ColumnDef.length).sum ∧
      ∃ cells, s'.record = s.record ++ cells ∧
        RecordRestores mem blobData columns record cells := by
  induction hfits generalizing s target with
  | nil => exact ⟨s, rfl, h, rfl, [], (append_nil _).symm, .nil⟩
  | @cons c cell columns record hc hrow ih =>
    obtain ⟨targetCell, target, rfl⟩ := exists_cons_of_length_eq_add_one htarget
    obtain ⟨hflag, hstands, hnext⟩ := h.cons
    dsimp only at hflag hstands hnext
    have hleft : _ + (rowBytes zeroString blobData (columns.zip record)).length + _ = _ :=
      hnext.src_add
    have hrest := sum_minLength_le zeroString blobData hrow
    rw [map_cons, sum_cons, Nat.add_assoc] at hmin
    obtain ⟨cell', hcell, hrestores⟩ := unpackColumn_spec
      (m := (columns.map ColumnDef.minLength).sum + rest.length) Prod.mk.eta.symm hc.2 hflag hstands
      targetCell hc.1 hzero (by omega) hlt
    have hstep : s.step mem srcEnd (c, targetCell) = some
        ⟨if c.type.hasBit then s.bits.next mem else s.bits,
          s.src + (packed zeroString blobData c cell).2.length, s.dst + c.length,
          (columns.map ColumnDef.minLength).sum + rest.length, s.record ++ [cell']⟩ := by
      simp only [Unpacker.step, hmin, hcell, Option.bind_eq_bind, Option.bind_some]
    obtain ⟨s', hrun, hread, hdst, cells, hcells, hrestores'⟩ :=
      ih (s := ⟨_, _, _, _, _⟩) hnext (by simpa using htarget) rfl
    refine ⟨s', ?_, hread, ?_, cell' :: cells, ?_, .cons hrestores hrestores'⟩
    · rw [zip_cons_cons, foldlM_cons, hstep]
      exact hrun
    · rw [hdst, map_cons, sum_cons, Nat.add_assoc]
    · rw [hcells, append_assoc, singleton_append]

theorem check {s : Checker} {record' : List Cell} {mem' : ℕ → UInt8}
    (h : Reading zeroString blobData mem room ns data (columns.zip record) rest s.bits s.dst)
    (hfits : RecordFits columns record)
    (hrestores : RecordRestores mem' blobData columns record record') :
    ∃ s', (columns.zip record').foldlM (Checker.step zeroString mem) s = some s' ∧
      Reading zeroString blobData mem room ns data [] rest s'.bits s'.dst := by
  induction hfits generalizing s record' with
  | nil => exact ⟨s, rfl, h⟩
  | @cons c cell columns record hc hrow ih =>
    obtain ⟨cell', record', hcell, hrest, rfl⟩ := forall₂_cons_left_iff.mp hrestores
    obtain ⟨hflag, hstands, hnext⟩ := h.cons
    have hstep : s.step zeroString mem (c, cell') =
        some ⟨if c.type.hasBit then s.bits.next mem else s.bits,
          s.dst + (packed zeroString blobData c cell).2.length⟩ := by
      simp only [Checker.step, checkColumn_spec Prod.mk.eta.symm hc.2 hflag hstands hcell,
        Option.bind_eq_bind, Option.bind_some]
    obtain ⟨s', hrun, hread⟩ := ih (s := ⟨_, _⟩) hnext hrest
    refine ⟨s', ?_, hread⟩
    rw [zip_cons_cons, foldlM_cons, hstep]
    exact hrun

end Reading

/-! ## The round trip -/

theorem Restores.self (mem : ℕ → UInt8) (c : ColumnDef) (cell : Cell) :
    Restores mem mem c cell cell := by
  unfold Restores
  split
  · exact ⟨rfl, rfl⟩
  · rfl
  · rfl

theorem RecordFits.restores_self (mem : ℕ → UInt8) (hfits : RecordFits columns record) :
    RecordRestores mem mem columns record record := by
  induction hfits with
  | nil => exact .nil
  | @cons c cell _ _ _ _ ih => exact .cons (Restores.self mem c cell) ih

section Row

variable (hfits : RecordFits share.columns record)
  (himage : BitImage false share.packBits (rowBits zeroString blobData (share.columns.zip record))
    (packedRow share checksum zeroString blobData record) mem)
  (hlt : share.packBits + (packedRow share checksum zeroString blobData record).length < 4294967296)

include hfits himage hlt

theorem recUnpack_of_image (htarget : target.length = share.columns.length)
    (hzero : ∀ i < 16, zeroString i = 0) :
    ∃ record', recUnpack share mem
        (share.packBits + (packedRow share checksum zeroString blobData record).length) target =
        some record' ∧
      RecordRestores mem blobData share.columns record record' := by
  have hroom := packBits_eq zeroString blobData (List.Forall₂.length_eq hfits).symm
  have hchecksum := length_checksumBytes share checksum
  have hle : ¬ share.packBits + (packedRow share checksum zeroString blobData record).length <
      share.minPackLength := by
    have hmin := sum_minLength_le zeroString blobData hfits
    rw [Share.minPackLength, packedRow, length_append]
    omega
  obtain ⟨s, hrun, hread, hdst, cells, hcells, hrestores⟩ := (Reading.init himage).unpack
    (s := ⟨.init mem, share.packBits, 0, share.minPackLength - share.packBits, []⟩) hfits htarget
    hzero (by rw [hchecksum, Share.minPackLength, Nat.add_sub_cancel]) rfl hlt
  have hlast : (if share.calcChecksum then s.src + 1 else s.src) =
      share.packBits + (packedRow share checksum zeroString blobData record).length := by
    have hsrc : s.src + 0 + _ = share.packBits + _ := hread.src_add
    rw [packedRow, ← hsrc, hchecksum]
    split <;> rfl
  have hdone : s.dst = share.reclength := by rw [hdst, Nat.zero_add, Share.reclength]
  refine ⟨cells, ?_, hrestores⟩
  rw [packedRow] at hle hlast ⊢
  rw [recUnpack, if_neg hle, hrun]
  simp only [Option.bind_eq_bind, Option.bind_some, hlast, hdone, hread.atEnd hroom, and_self,
    if_true]
  rw [hcells, nil_append]

theorem recCheck_of_image {mem' : ℕ → UInt8} {record' : List Cell} {withChecksum : Bool}
    (hrestores : RecordRestores mem' blobData share.columns record record')
    (hchecksum : withChecksum = true → share.calcChecksum = true) :
    recCheck share checksum zeroString record' mem
      (share.packBits + (packedRow share checksum zeroString blobData record).length)
      withChecksum = true := by
  have hroom := packBits_eq zeroString blobData (List.Forall₂.length_eq hfits).symm
  obtain ⟨s, hrun, hread⟩ := (Reading.init himage).check (s := ⟨.init mem, share.packBits⟩) hfits
    hrestores
  have hdst : s.dst + 0 + _ = share.packBits + _ := hread.src_add
  rw [recCheck, hrun]
  rw [decide_eq_true_iff]
  unfold packedRow at hlt himage ⊢
  rw [← hdst, length_checksumBytes] at hlt ⊢
  refine ⟨?_, hread.atEnd hroom, ?_⟩
  · rw [Nat.mod_eq_of_lt (by omega)]
    rfl
  · rintro ⟨hwith, hne⟩
    have hstands := (stands_append.mp himage.stands).2
    rw [length_append] at hdst
    rw [checksumBytes, hchecksum hwith] at hstands
    rw [show share.packBits + _ = s.dst by omega] at hstands
    exact hne (stands_singleton.mp hstands).symm

end Row

/-- A packed row is unpacked to a record with the same values, and is right for both records. -/
theorem recUnpack_recPack (share : Share) (checksum : UInt8) (record target : List Cell)
    (zeroString blobData mem : ℕ → UInt8) (withChecksum : Bool)
    (hfits : RecordFits share.columns record) (htarget : target.length = share.columns.length)
    (hzero : ∀ i < 16, zeroString i = 0)
    (hchecksum : withChecksum = true → share.calcChecksum = true)
    (hlt : share.packBits + (packedRow share checksum zeroString blobData record).length <
      4294967296) :
    let packed := recPack share checksum zeroString blobData
      (blobLengths (share.columns.zip record)) mem record
    ∃ record', recUnpack share packed.1 packed.2 target = some record' ∧
      RecordRestores packed.1 blobData share.columns record record' ∧
      recCheck share checksum zeroString record packed.1 packed.2 withChecksum = true ∧
      recCheck share checksum zeroString record' packed.1 packed.2 withChecksum = true := by
  have hrecord := (List.Forall₂.length_eq hfits).symm
  obtain ⟨himage, hlength⟩ := recPack_spec checksum zeroString blobData hrecord mem
  rw [Nat.mod_eq_of_lt hlt] at hlength
  obtain ⟨record', hunpack, hrestores⟩ := recUnpack_of_image hfits himage hlt htarget hzero
  rw [← hlength] at hunpack
  refine ⟨record', hunpack, hrestores, ?_, ?_⟩
  · have hcheck := recCheck_of_image hfits himage hlt (hfits.restores_self blobData) hchecksum
    rwa [← hlength] at hcheck
  · have hcheck := recCheck_of_image hfits himage hlt hrestores hchecksum
    rwa [← hlength] at hcheck

def sampleShare : Share where
  columns := [⟨.normal, 1⟩, ⟨.skipEndspace, 4⟩, ⟨.skipPrespace, 4⟩, ⟨.skipZero, 2⟩, ⟨.blob, 9⟩,
    ⟨.varchar, 4⟩]
  calcChecksum := true

def sampleRecord : List Cell :=
  [⟨[7], 0⟩, ⟨[97, 32, 32, 32], 0⟩, ⟨[32, 97, 98, 99], 0⟩, ⟨[0, 0], 0⟩, ⟨[3], 5⟩,
    ⟨[2, 97, 98, 9], 0⟩]

theorem recUnpack_recPack_sample :
    let packed := recPack sampleShare 77 (fun _ => 0) (fun p => .ofNat p) [3] (fun _ => 1)
      sampleRecord
    RecordFits sampleShare.columns sampleRecord ∧
      ∃ record', recUnpack sampleShare packed.1 packed.2 sampleRecord = some record' ∧
        RecordRestores packed.1 (fun p => .ofNat p) sampleShare.columns sampleRecord record' ∧
        recCheck sampleShare 77 (fun _ => 0) sampleRecord packed.1 packed.2 true = true ∧
        recCheck sampleShare 77 (fun _ => 0) record' packed.1 packed.2 true = true := by
  have hfits : RecordFits sampleShare.columns sampleRecord := by
    repeat' constructor
    all_goals decide
  exact ⟨hfits, recUnpack_recPack sampleShare 77 sampleRecord sampleRecord (fun _ => 0)
    (fun p => .ofNat p) (fun _ => 1) true hfits rfl (fun _ _ => rfl) (fun _ => rfl) (by decide)⟩

theorem recUnpack_blob_short (himage : BitImage false 1 [false] data mem) :
    (recUnpack ⟨[⟨.blob, 12⟩], false⟩ mem 4 [cell]).isSome = false := by
  have hat : (BitReader.init mem).At mem ([] : List Bool).length := .init mem
  have hset := hat.isSet_eq himage
  have hleft : ulongDiff 4 1 = 3 := ulongDiff_eq (by decide) (by omega)
  simp [recUnpack, Share.minPackLength, Share.packBits, ColumnDef.minLength, FieldType.hasBit,
    Unpacker.step, unpackColumn, hset, unpackBlob, hleft, sizeofCharPtr]

theorem recUnpack_recPack_long (share : Share) (record : List Cell)
    (zeroString blobData mem : ℕ → UInt8) (hshare : share = ⟨[⟨.blob, 12⟩], false⟩)
    (hrecord : record = [⟨[255, 255, 255, 255], 0⟩]) :
    let packed := recPack share 0 zeroString blobData (blobLengths (share.columns.zip record)) mem
      record
    (recUnpack share packed.1 packed.2 record).isSome = false := by
  have hblob : blobLength ⟨.blob, 12⟩ ⟨[255, 255, 255, 255], 0⟩ = 4294967295 := by
    simp [blobLength, calcBlobLength, sizeofCharPtr, korr]
  have hcolumn : packed zeroString blobData ⟨.blob, 12⟩ ⟨[255, 255, 255, 255], 0⟩ =
      (some false, [255, 255, 255, 255] ++
        slice blobData 0 (blobLength ⟨.blob, 12⟩ ⟨[255, 255, 255, 255], 0⟩)) := by
    rw [packed, packColumn, if_neg (by omega)]
  have hbits : rowBits zeroString blobData (share.columns.zip record) = [false] := by
    simp [hshare, hrecord, rowBits, hcolumn]
  have hbytes : (packedRow share 0 zeroString blobData record).length = 4294967299 := by
    simp only [hshare, hrecord, packedRow, length_append, length_checksumBytes,
      zip_cons_cons, zip_nil_left, rowBytes_cons, hcolumn, length_slice, hblob]
    simp [rowBytes]
  have hpackBits : share.packBits = 1 := by
    rw [hshare]
    decide
  obtain ⟨himage, hlength⟩ := recPack_spec 0 zeroString blobData
    (show record.length = share.columns.length by rw [hshare, hrecord]; rfl) mem
  rw [hbytes, hpackBits] at hlength
  rw [hbits, hpackBits] at himage
  dsimp only
  rw [hlength]
  revert himage
  generalize recPack share 0 zeroString blobData (blobLengths (share.columns.zip record)) mem record
    = out
  intro himage
  rw [hshare, hrecord]
  exact recUnpack_blob_short himage

/-- What goes wrong with a column of no width, with zeros that are wider than those to compare with,
and with a row whose packed length does not fit into a `uint`. -/
theorem recUnpack_recPack_fails :
    (let share : Share := ⟨[⟨.skipEndspace, 0⟩], false⟩
      let packed := recPack share 0 (fun _ => 0) (fun _ => 0) [] (fun _ => 0) [⟨[], 0⟩]
      (recUnpack share packed.1 packed.2 [⟨[], 0⟩]).isSome = false) ∧
    (let share : Share := ⟨[⟨.skipZero, 17⟩], false⟩
      let record : List Cell := [⟨replicate 16 0 ++ [1], 0⟩]
      let packed := recPack share 0 (fun i => if i < 16 then 0 else 1) (fun _ => 0) [] (fun _ => 0)
        record
      (recUnpack share packed.1 packed.2 record).map (·.map Cell.bytes) =
        some [replicate 17 0]) ∧
    (let share : Share := ⟨[⟨.blob, 12⟩], false⟩
      let record : List Cell := [⟨[255, 255, 255, 255], 0⟩]
      let packed := recPack share 0 (fun _ => 0) (fun _ => 0)
        (blobLengths (share.columns.zip record)) (fun _ => 0) record
      (recUnpack share packed.1 packed.2 record).isSome = false) :=
  ⟨by decide, by decide, recUnpack_recPack_long _ _ _ _ _ rfl rfl⟩

end MySQL.Myisam
