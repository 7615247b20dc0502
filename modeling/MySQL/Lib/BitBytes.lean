import MySQL.Lib.Memory

/-!
# Bits in bytes

Bits are collected in a machine word with a mask, and every eight of them are a byte in memory.  The
bits of the last byte that are not used have a fixed value.
-/

namespace MySQL.Lib

open List

variable {fill x : Bool} {ns : List Bool} {mem : ℕ → UInt8} {bits mask : BitVec 32} {e b i n : ℕ}

/-! ## Masks -/

theorem getLsbD_mask (hb : b < 32) : ((1 : BitVec 32) <<< e).getLsbD b = decide (b = e) := by
  rw [BitVec.getLsbD_shiftLeft, BitVec.ofNat_eq_ofNat, BitVec.getLsbD_one]
  by_cases hbe : b < e
  · simp [hbe, show b ≠ e by omega]
  · simp only [hb, hbe, decide_true, decide_false, Bool.not_false, Bool.true_and, Nat.zero_lt_succ]
    congr 1
    exact propext (by omega)

theorem and_mask_ne_zero (he : e < 32) (w : BitVec 32) :
    w &&& (1 : BitVec 32) <<< e ≠ 0 ↔ w.getLsbD e = true := by
  constructor
  · intro hne
    by_contra hbit
    refine hne (BitVec.eq_of_getLsbD_eq fun b hb => ?_)
    rw [BitVec.getLsbD_and, getLsbD_mask hb, BitVec.ofNat_eq_ofNat]
    by_cases hbe : b = e
    · subst hbe
      simp [hbit]
    · simp [hbe]
  · intro hbit hzero
    have hbit' : (w &&& (1 : BitVec 32) <<< e).getLsbD e = true := by
      rw [BitVec.getLsbD_and, hbit, getLsbD_mask he]
      simp
    rw [hzero, BitVec.ofNat_eq_ofNat, BitVec.getLsbD_zero] at hbit'
    exact Bool.noConfusion hbit'

theorem byte_and_mask_ne_zero (he : e < 8) (w : UInt8) :
    w.toBitVec.setWidth 32 &&& (1 : BitVec 32) <<< e ≠ 0 ↔ w.toBitVec.getLsbD e = true := by
  rw [and_mask_ne_zero (by omega)]
  simp [show e < 32 by omega]

/-! ## The bits of a list -/

def bitAt (fill : Bool) (ns : List Bool) (i : ℕ) : Bool := (ns[i]?).getD fill

theorem bitAt_append_of_ne (h : i ≠ ns.length) : bitAt fill (ns ++ [x]) i = bitAt fill ns i := by
  unfold bitAt
  by_cases hi : i < ns.length
  · rw [List.getElem?_append_left hi]
  · rw [List.getElem?_eq_none (by simp; omega), List.getElem?_eq_none (by omega)]

theorem bitAt_append_self : bitAt fill (ns ++ [x]) ns.length = x := by
  simp [bitAt]

theorem bitAt_of_le (h : ns.length ≤ i) : bitAt fill ns i = fill := by
  rw [bitAt, List.getElem?_eq_none h, Option.getD_none]

theorem bitAt_of_getElem? (h : ns[i]? = some x) : bitAt fill ns i = x := by
  rw [bitAt, h, Option.getD_some]

def BitsStand (fill : Bool) (mem : ℕ → UInt8) (ns : List Bool) (n : ℕ) : Prop :=
  ∀ p < n, ∀ b < 8, (mem p).toBitVec.getLsbD b = bitAt fill ns (8 * p + b)

section

variable (h : BitsStand fill mem ns n)

include h

theorem BitsStand.write_of_le {p : ℕ} {l : List UInt8} (hp : n ≤ p) :
    BitsStand fill (write mem p l) ns n := by
  intro q hq b hb
  rw [write_of_lt (by omega)]
  exact h q hq b hb

theorem BitsStand.append (hn : n ≤ ns.length / 8) : BitsStand fill mem (ns ++ [x]) n := by
  intro q hq b hb
  rw [bitAt_append_of_ne (by omega)]
  exact h q hq b hb

theorem BitsStand.write_bits (hbits : ∀ b < 8, bits.getLsbD b = bitAt fill ns (8 * n + b)) :
    BitsStand fill (write mem n [UInt8.ofBitVec (bits.setWidth 8)]) ns (n + 1) := by
  intro p hp b hb
  by_cases hlast : p = n
  · subst hlast
    have hbyte := stands_singleton.mp (stands_write mem p [UInt8.ofBitVec (bits.setWidth 8)])
    rw [hbyte, BitVec.getLsbD_setWidth, hbits b hb]
    simp [hb]
  · rw [write_of_lt (by omega)]
    exact h p (by omega) b hb

theorem BitsStand.getLsbD_eq (hi : i < 8 * n) :
    (mem (i / 8)).toBitVec.getLsbD (i % 8) = bitAt fill ns i := by
  rw [h _ (by omega) _ (Nat.mod_lt _ (by decide)), Nat.div_add_mod]

end

/-! ## Collecting bits -/

/-- The bits of the byte that is not full yet, and the mask of the next one. -/
structure Collecting (fill : Bool) (ns : List Bool) (bits mask : BitVec 32) : Prop where
  mask_eq : mask = (1 : BitVec 32) <<< (ns.length % 8)
  bits_eq : ∀ b < 8, bits.getLsbD b = bitAt fill ns (8 * (ns.length / 8) + b)

def Filled (fill : Bool) (ns : List Bool) (x : Bool) (bits : BitVec 32) : Prop :=
  ∀ b < 8, bits.getLsbD b = bitAt fill (ns ++ [x]) (8 * (ns.length / 8) + b)

theorem collecting_start (h : ns.length % 8 = 0) (hbits : ∀ b < 8, bits.getLsbD b = fill) :
    Collecting fill ns bits 1 := by
  refine ⟨by rw [h]; rfl, fun b hb => ?_⟩
  rw [hbits b hb, bitAt_of_le (by omega)]

namespace Collecting

section

variable (h : Collecting fill ns bits mask)

include h

theorem filled {bits' : BitVec 32}
    (hbits : ∀ b < 8, bits'.getLsbD b = if b = ns.length % 8 then x else bits.getLsbD b) :
    Filled fill ns x bits' := by
  intro b hb
  rw [hbits b hb]
  split
  · next heq => rw [heq, Nat.div_add_mod, bitAt_append_self]
  · next hne => rw [h.bits_eq b hb, bitAt_append_of_ne (by omega)]

theorem or : Filled fill ns true (bits ||| mask) := by
  refine h.filled fun b hb => ?_
  rw [BitVec.getLsbD_or, h.mask_eq, getLsbD_mask (by omega)]
  split <;> simp [*]

theorem and_not : Filled fill ns false (bits &&& ~~~mask) := by
  refine h.filled fun b hb => ?_
  rw [BitVec.getLsbD_and, BitVec.getLsbD_not, h.mask_eq]
  split
  · simp [*]
  · simp [*]
    omega

theorem same : Filled fill ns fill bits := by
  refine h.filled fun b hb => ?_
  split
  · next heq => rw [h.bits_eq b hb, bitAt_of_le (by omega)]
  · rfl

end

end Collecting

namespace Filled

theorem collecting (h : Filled fill ns x bits) (hmask : mask = (1 : BitVec 32) <<< (ns.length % 8))
    (hpart : ns.length % 8 + 1 ≠ 8) : Collecting fill (ns ++ [x]) bits (mask <<< (1 : ℕ)) := by
  have hlen : (ns ++ [x]).length / 8 = ns.length / 8 := by simp; omega
  have hmod : (ns ++ [x]).length % 8 = ns.length % 8 + 1 := by simp; omega
  refine ⟨by rw [hmask, hmod, BitVec.shiftLeft_add], fun b hb => ?_⟩
  rw [hlen]
  exact h b hb

theorem bitsStand (h : Filled fill ns x bits) (hfull : ns.length % 8 + 1 = 8)
    (hmem : BitsStand fill mem ns (ns.length / 8)) :
    BitsStand fill (write mem (ns.length / 8) [UInt8.ofBitVec (bits.setWidth 8)]) (ns ++ [x])
      ((ns ++ [x]).length / 8) := by
  have hlen : (ns ++ [x]).length / 8 = ns.length / 8 + 1 := by simp; omega
  rw [hlen]
  exact (hmem.append le_rfl).write_bits h

end Filled

/-! ## Bits with values behind them -/

/-- The bits `ns` and the values `data` are written so far, with room for all bits in front of the
values. -/
structure Writing (fill : Bool) (room : ℕ) (ns : List Bool) (data : List UInt8) (mem : ℕ → UInt8)
    (pos : ℕ) (bits mask : BitVec 32) (dst : ℕ) : Prop where
  pos_eq : pos = ns.length / 8
  collecting : Collecting fill ns bits mask
  dst_eq : dst = room + data.length
  stands : Stands mem room data
  bytes : BitsStand fill mem ns (ns.length / 8)

/-- All bits, and the values behind them. -/
structure BitImage (fill : Bool) (room : ℕ) (ns : List Bool) (data : List UInt8)
    (mem : ℕ → UInt8) : Prop where
  length_le : ns.length ≤ 8 * room
  bits : BitsStand fill mem ns room
  stands : Stands mem room data

variable {room pos dst : ℕ} {data : List UInt8} {bits' : BitVec 32}

theorem writing_start (hbits : ∀ b < 8, bits.getLsbD b = fill) :
    Writing fill room [] [] mem 0 bits 1 room :=
  ⟨rfl, collecting_start rfl hbits, rfl, stands_nil _ _, fun p hp => absurd hp (by simp)⟩

namespace Writing

section

variable (h : Writing fill room ns data mem pos bits mask dst)

include h

theorem append (hroom : ns.length / 8 ≤ room) (chunk : List UInt8) :
    Writing fill room ns (data ++ chunk) (write mem dst chunk) pos bits mask
      (dst + chunk.length) := by
  refine ⟨h.pos_eq, h.collecting, ?_, ?_, h.bytes.write_of_le ?_⟩
  · rw [h.dst_eq, length_append, Nat.add_assoc]
  · rw [stands_append]
    refine ⟨h.stands.write_of_disjoint (.inr h.dst_eq.ge), ?_⟩
    rw [← h.dst_eq]
    exact stands_write mem dst chunk
  · rw [h.dst_eq]
    exact hroom.trans (Nat.le_add_right _ _)

theorem bit (hbits : Filled fill ns x bits') (hpart : ns.length % 8 + 1 ≠ 8) :
    Writing fill room (ns ++ [x]) data mem pos bits' (mask <<< (1 : ℕ)) dst := by
  have hlen : (ns ++ [x]).length / 8 = ns.length / 8 := by simp; omega
  refine ⟨h.pos_eq.trans hlen.symm, hbits.collecting h.collecting.mask_eq hpart, h.dst_eq,
    h.stands, ?_⟩
  rw [hlen]
  exact h.bytes.append le_rfl

theorem bit_full (hbits : Filled fill ns x bits') (hfull : ns.length % 8 + 1 = 8)
    (hroom : ns.length / 8 < room) {start : BitVec 32} (hstart : ∀ b < 8, start.getLsbD b = fill) :
    Writing fill room (ns ++ [x]) data (write mem pos [UInt8.ofBitVec (bits'.setWidth 8)])
      (pos + 1) start 1 dst := by
  refine ⟨?_, collecting_start (by simp; omega) hstart, h.dst_eq,
    h.stands.write_of_disjoint (.inl ?_), ?_⟩
  · rw [h.pos_eq, length_append, length_singleton]
    omega
  · rw [h.pos_eq, length_singleton]
    omega
  · rw [h.pos_eq]
    exact hbits.bitsStand hfull h.bytes

theorem image (hroom : room = (ns.length + 7) / 8) :
    BitImage fill room ns data
      (if ns.length % 8 ≠ 0 then write mem pos [UInt8.ofBitVec (bits.setWidth 8)] else mem) := by
  split
  · next hpart =>
    refine ⟨by omega, ?_, h.stands.write_of_disjoint (.inl ?_)⟩
    · rw [h.pos_eq, show room = ns.length / 8 + 1 by omega]
      exact h.bytes.write_bits h.collecting.bits_eq
    · rw [h.pos_eq, length_singleton]
      omega
  · next hfull =>
    refine ⟨by omega, ?_, h.stands⟩
    rw [show room = ns.length / 8 by omega]
    exact h.bytes

end

end Writing

theorem BitImage.append (h : BitImage fill room ns data mem) (chunk : List UInt8) :
    BitImage fill room ns (data ++ chunk) (write mem (room + data.length) chunk) := by
  refine ⟨h.length_le, h.bits.write_of_le (Nat.le_add_right _ _), stands_append.mpr ⟨?_, ?_⟩⟩
  · exact h.stands.write_of_disjoint (.inr le_rfl)
  · exact stands_write _ _ _

end MySQL.Lib
