import MySQL.Mysys.HashDelete
import MySQL.Mysys.HashSearch
import MySQL.Mysys.HashSplit

/-!
# Hash tables in use

What `my_hash_insert`, `my_hash_delete` and `my_hash_update` do to a table whose chains are those
of the keys, and what this means for every sequence of calls.
-/

namespace MySQL.Mysys

open Lib List Function

variable {ρ κ : Type*} {ops : KeyOps κ} {key : ρ → κ} {h : Hash ρ} {content : Multiset ρ}
  {home : ρ → ℕ} {array : ℕ → HashLink ρ} {chains : ℕ → List (ℕ × ρ)} {free : Option ℕ} {n : ℕ}
  {k : κ}

def Hash.stored (h : Hash ρ) : Multiset ρ :=
  (Multiset.range h.records).map fun i => (h.array i).data

/-! ## The records of all chains -/

theorem Table.stored_eq (T : Table home n none array chains) :
    (Multiset.range n).map (fun i => (array i).data) = total n chains := by
  have hslots : Multiset.range n = ∑ b ∈ Finset.range n, (slots (chains b) : Multiset ℕ) := by
    ext i
    rw [Multiset.count_sum']
    by_cases hi : i < n
    · have hused : Used n none i := ⟨hi, by simp⟩
      have hmem := mem_slots_of_mem (T.mem_chain hused)
      have hcount : ∀ b ∈ Finset.range n, Multiset.count i (slots (chains b) : Multiset ℕ) =
          if home (array i).data = b then 1 else 0 := by
        intro b _
        rw [Multiset.coe_count]
        split_ifs with hb
        · exact count_eq_one_of_mem (T.nodup_slots b) (hb ▸ hmem)
        · exact count_eq_zero.mpr fun hib => hb (T.chain_unique hmem hib)
      rw [Finset.sum_congr rfl hcount, Finset.sum_ite_eq,
        if_pos (Finset.mem_range.mpr (T.home_lt hused))]
      exact Multiset.count_eq_one_of_mem (Multiset.nodup_range n) (Multiset.mem_range.mpr hi)
    · have hnot : ∀ b ∈ Finset.range n, Multiset.count i (slots (chains b) : Multiset ℕ) = 0 := by
        intro b _
        refine Multiset.count_eq_zero.mpr fun hib => hi ?_
        exact ((T.used_iff i).mpr ⟨b, Multiset.mem_coe.mp hib⟩).1
      rw [Finset.sum_eq_zero hnot]
      exact Multiset.count_eq_zero.mpr fun h => hi (Multiset.mem_range.mp h)
  have hmap := map_sum (Multiset.mapAddMonoidHom fun i => (array i).data)
    (fun b => (slots (chains b) : Multiset ℕ)) (Finset.range n)
  simp only [Multiset.coe_mapAddMonoidHom] at hmap
  rw [hslots, hmap]
  refine Finset.sum_congr rfl fun b _ => ?_
  rw [Multiset.map_coe, slots, List.map_map]
  exact congrArg _ (map_congr_left fun p hp => T.data_eq hp)

theorem Table.mem_total {d : ρ} (T : Table home n free array chains) :
    d ∈ total n chains ↔ d ∈ recs (chains (home d)) := by
  rw [total, Multiset.mem_sum]
  constructor
  · rintro ⟨b, -, hd⟩
    obtain ⟨p, hp, rfl⟩ := mem_recs.mp hd
    rwa [T.home_eq b p hp]
  · intro hd
    obtain ⟨p, hp, -⟩ := mem_recs.mp hd
    exact ⟨home d, Finset.mem_range.mpr (T.lt_of_mem hp), hd⟩

theorem Table.filter_total {b : ℕ} (T : Table home n none array chains)
    (hb : ∀ d, ops.same (key d) k = true → home d = b) :
    (total n chains).filter (fun d => ops.same (key d) k = true) =
      (matching ops key k (chains b) : Multiset ρ) := by
  have hother : ∀ c, c ≠ b → (recs (chains c)).filter (fun d => ops.same (key d) k = true) = 0 := by
    intro c hc
    refine Multiset.filter_eq_nil.mpr fun d hd hsame => hc ?_
    obtain ⟨p, hp, rfl⟩ := mem_recs.mp hd
    rw [← hb p.2 hsame, T.home_eq c p hp]
  have hsum : ∀ m, (total m chains).filter (fun d => ops.same (key d) k = true) =
      if b < m then (matching ops key k (chains b) : Multiset ρ) else 0 := by
    intro m
    induction m with
    | zero => simp [total]
    | succ m ih =>
      rw [total_succ, Multiset.filter_add, ih]
      rcases Nat.lt_trichotomy b m with hlt | rfl | hlt
      · rw [hother m hlt.ne', if_pos hlt, if_pos (Nat.lt_succ_of_lt hlt), add_zero]
      · simp [recs, matching]
      · rw [hother m hlt.ne, if_neg (by omega), if_neg (by omega), add_zero]
  rw [hsum n]
  split_ifs with hlt
  · rfl
  · rw [T.nil_of_le (Nat.not_lt.mp hlt)]
    rfl

/-! ## The invariant -/

/-- The chains are those of the keys, and `content` are the records. -/
structure Hash.Inv (ops : KeyOps κ) (key : ρ → κ) (h : Hash ρ) (content : Multiset ρ) : Prop where
  pow : ∃ j, h.blength = 2 ^ j
  half_le : h.blength / 2 ≤ h.records
  lt : h.records < h.blength
  table : ∃ chains, Table (homeAt ops key h.blength h.records) h.records none h.array chains ∧
    total h.records chains = content

theorem homeAt_of_same {blength : ℕ} {d : ρ} (h : ops.same (key d) k = true) :
    homeAt ops key blength n d = myHashMask (ops.calcHash k) blength n := by
  rw [homeAt, recHashnr, ops.calcHash_eq _ _ h]

namespace Hash.Inv

section

variable (I : h.Inv ops key content)

include I

theorem exists_succ (hpos : h.records ≠ 0) :
    ∃ j, h.blength = 2 ^ (j + 1) ∧ 2 ^ j ≤ h.records ∧ h.records < 2 ^ (j + 1) := by
  obtain ⟨j, hj⟩ := I.pow
  have hle := I.half_le
  have hlt := I.lt
  cases j with
  | zero => omega
  | succ j =>
    refine ⟨j, hj, ?_, by omega⟩
    rw [hj, pow_succ, Nat.mul_div_cancel _ Nat.two_pos] at hle
    exact hle

theorem mask_lt (hashnr : ℕ) (hpos : h.records ≠ 0) :
    myHashMask hashnr h.blength h.records < h.records := by
  obtain ⟨j, hj, hle, -⟩ := I.exists_succ hpos
  rw [hj]
  exact myHashMask_lt hle

theorem stored_eq : h.stored = content := by
  obtain ⟨chains, T, htotal⟩ := I.table
  exact T.stored_eq.trans htotal

theorem searchAll (k : κ) :
    ∃ l : List ρ, (∀ m, l.length ≤ m → Mysys.searchAll ops key h k m = some l) ∧
      (l : Multiset ρ) = content.filter fun d => ops.same (key d) k = true := by
  obtain ⟨chains, T, htotal⟩ := I.table
  refine ⟨_, fun m hm => searchAll_spec T (I.mask_lt _) hm, ?_⟩
  rw [← htotal]
  exact (T.filter_total fun d hd => homeAt_of_same hd).symm

end

end Hash.Inv

/-! ## Insert -/

section Calls

theorem homeAt_double {j : ℕ} (d : ρ) :
    homeAt ops key (2 ^ j + 2 ^ j) (2 ^ j) d = homeAt ops key (2 ^ j) (2 ^ j) d := by
  rw [← mul_two]
  exact myHashMask_double _ j

theorem Table.congr_home {home' : ρ → ℕ} (T : Table home n free array chains)
    (hhome : ∀ d ∈ total n chains, home' d = home d) : Table home' n free array chains where
  __ := T
  home_eq b p hp := by
    rw [hhome p.2, T.home_eq b p hp]
    rw [T.mem_total, T.home_eq b p hp]
    exact mem_recs.mpr ⟨p, hp, rfl⟩

theorem Hash.Inv.insertSlot (I : h.Inv ops key content) (record : ρ) :
    ∃ array' e array'', split ops key h record = some (array', e) ∧
      placeFirst ops key array' h.blength (h.records + 1) e record = some array'' ∧
      Hash.Inv ops key ⟨array'', h.records + 1,
        if h.records + 1 = h.blength then h.blength + h.blength else h.blength⟩
        (record ::ₘ content) := by
  obtain ⟨chains, T, htotal⟩ := I.table
  obtain ⟨j, hj⟩ := I.pow
  have hle := I.half_le
  have hlt := I.lt
  obtain ⟨array', e, chains', hsplit, T', htotal'⟩ := T.split_spec hj hle hlt record
  have hd : homeAt ops key h.blength (h.records + 1) record < h.records + 1 := by
    rw [hj] at hle hlt ⊢
    cases j with
    | zero =>
      rw [homeAt, myHashMask]
      simp [maskBits]
    | succ j =>
      rw [pow_succ, Nat.mul_div_cancel _ Nat.two_pos] at hle
      exact myHashMask_lt (hle.trans (Nat.le_succ _))
  obtain ⟨array'', chains'', hplace, T'', htotal''⟩ := T'.placeFirst_spec hd
  have hcontent : total (h.records + 1) chains'' = record ::ₘ content := by
    rw [htotal'', htotal', htotal]
  refine ⟨array', e, array'', hsplit, hplace, ?_⟩
  split_ifs with hfull
  · refine ⟨⟨j + 1, ?_⟩, ?_, ?_, chains'', ?_, hcontent⟩
    · rw [hj, ← mul_two, ← pow_succ]
    · simp only
      omega
    · simp only
      omega
    · refine T''.congr_home fun d _ => ?_
      rw [hfull, hj]
      exact homeAt_double d
  · refine ⟨⟨j, hj⟩, ?_, ?_, chains'', T'', hcontent⟩
    · simp only
      omega
    · simp only
      omega

theorem Hash.Inv.insert (I : h.Inv ops key content) (unique alloc : Bool) (record : ρ) :
    ∃ failed h', myHashInsert ops key unique alloc h record = some (failed, h') ∧
      h'.Inv ops key (if failed then content else record ::ₘ content) ∧
      (failed = true ↔ alloc = false ∨
        unique = true ∧ ∃ d ∈ content, ops.same (key d) (key record) = true) := by
  obtain ⟨array', e, array'', hsplit, hplace, I'⟩ := I.insertSlot record
  obtain ⟨chains, T, htotal⟩ := I.table
  obtain ⟨found, hfound, hiff⟩ : ∃ found,
      (if unique then myHashFirst ops key h (key record) else some none) = some found ∧
        (found.isSome = true ↔
          unique = true ∧ ∃ d ∈ content, ops.same (key d) (key record) = true) := by
    cases unique with
    | false => exact ⟨none, rfl, by simp⟩
    | true =>
      refine ⟨_, (if_pos rfl).trans (myHashFirst_spec T (I.mask_lt _)), ?_⟩
      have hfilter := T.filter_total (k := key record) fun d hd => homeAt_of_same hd
      rw [htotal] at hfilter
      have hex : (∃ d ∈ content, ops.same (key d) (key record) = true) ↔
          matching ops key (key record) (chains (myHashMask (ops.calcHash (key record)) h.blength
            h.records)) ≠ [] := by
        rw [← not_iff_not, not_not, ← Multiset.coe_eq_zero, ← hfilter, Multiset.filter_eq_nil]
        simp
      rw [hex, eq_self, true_and]
      cases hmatch : firstMatch ops key (key record) (chains (myHashMask (ops.calcHash (key record))
          h.blength h.records)) with
      | none => simp [matching_eq_nil (firstMatch_eq_none hmatch)]
      | some i =>
        obtain ⟨l₁, d, l₂, hl, hsame, hnot⟩ := mem_of_firstMatch hmatch
        simp [hl, matching_append_cons (p := (i, d)) hsame hnot]
  rw [myHashInsert, hfound, Option.bind_some]
  by_cases hfail : found.isSome = true ∨ alloc = false
  · refine ⟨true, h, if_pos hfail, I, iff_of_true rfl ?_⟩
    rwa [hiff, or_comm] at hfail
  · refine ⟨false, _, ?_, I', iff_of_false Bool.false_ne_true ?_⟩
    · rw [if_neg hfail, hsplit, Option.bind_some]
      dsimp only
      rw [hplace, Option.map_some]
    · rwa [hiff, or_comm] at hfail

variable [DecidableEq ρ] {unique alloc : Bool} {record : ρ}

/-! ## Delete -/

/-- `blength` after a record was taken out. -/
def shrunk (blength records : ℕ) : ℕ :=
  if records < blength >>> 1 then blength >>> 1 else blength

omit [DecidableEq ρ] in
theorem Hash.Inv.shrunk (I : h.Inv ops key content) {m : ℕ} (hm : h.records = m + 1) :
    (∃ j, Mysys.shrunk h.blength m = 2 ^ j) ∧ Mysys.shrunk h.blength m / 2 ≤ m ∧
      m < Mysys.shrunk h.blength m ∧
      ∃ f, m ≠ 0 → f < m ∧ ∀ d, homeAt ops key (Mysys.shrunk h.blength m) m d =
        if homeAt ops key h.blength (m + 1) d = m then f
        else homeAt ops key h.blength (m + 1) d := by
  obtain ⟨j, hj, hle, hlt⟩ := I.exists_succ (by omega)
  rw [hm] at hle hlt
  have hshift : 2 ^ (j + 1) >>> 1 = 2 ^ j := by
    rw [Nat.shiftRight_eq_div_pow, pow_succ, pow_one, Nat.mul_div_cancel _ Nat.two_pos]
  have hdouble : 2 ^ (j + 1) = 2 * 2 ^ j := by rw [pow_succ, mul_comm]
  rw [Mysys.shrunk, hj, hshift]
  by_cases hsmall : m < 2 ^ j
  · -- the array is half as long now, and was full before with the new length
    have hm' : m + 1 = 2 ^ j := by omega
    rw [if_pos hsmall]
    refine ⟨⟨j, rfl⟩, by omega, hsmall, m - 2 ^ (j - 1), fun hpos => ?_⟩
    obtain ⟨i, rfl⟩ : ∃ i, j = i + 1 := Nat.exists_eq_succ_of_ne_zero (by
      rintro rfl
      omega)
    have hpow : 2 ^ (i + 1) = 2 * 2 ^ i := by rw [pow_succ, mul_comm]
    have hipos := Nat.two_pow_pos i
    rw [Nat.add_sub_cancel]
    refine ⟨by omega, fun d => ?_⟩
    have hold : homeAt ops key (2 ^ (i + 1 + 1)) (m + 1) d =
        homeAt ops key (2 ^ (i + 1)) (m + 1) d := by
      rw [hm']
      exact myHashMask_double _ _
    rw [hold]
    exact myHashMask_pred (by omega) (by omega)
  · rw [if_neg hsmall]
    have hjpos := Nat.two_pow_pos j
    refine ⟨⟨j + 1, rfl⟩, by omega, by omega, m - 2 ^ j, fun hpos => ⟨by omega, fun d => ?_⟩⟩
    exact myHashMask_pred (by omega) (by omega)

theorem Hash.Inv.delete (I : h.Inv ops key content) (record : ρ) :
    ∃ failed h', myHashDelete ops key h record = some (failed, h') ∧
      h'.Inv ops key (content.erase record) ∧ (failed = true ↔ record ∉ content) := by
  obtain ⟨chains, T, htotal⟩ := I.table
  have habsent (hnot : record ∉ content) : ∃ failed h', some (true, h) = some (failed, h') ∧
      h'.Inv ops key (content.erase record) ∧ (failed = true ↔ record ∉ content) :=
    ⟨true, h, rfl, (Multiset.erase_of_notMem hnot).symm ▸ I, iff_of_true rfl hnot⟩
  cases hm : h.records with
  | zero =>
    rw [myHashDelete, if_pos hm]
    refine habsent ?_
    rw [← htotal, hm]
    exact Multiset.notMem_zero record
  | succ m =>
    have hpos : h.records ≠ 0 := by omega
    have hmask : myHashMask (recHashnr ops key record) h.blength h.records =
        homeAt ops key h.blength h.records record := rfl
    rw [myHashDelete, if_neg hpos, hmask]
    dsimp only
    rcases T.findRecord_spec (I.mask_lt _ hpos) with ⟨hnot, hfind⟩ | ⟨l₁, i, l₂, hl, hfind⟩
    · rw [hfind]
      exact habsent (by rwa [← htotal, T.mem_total])
    · have hmem : record ∈ content := by
        rw [← htotal, T.mem_total, hl]
        exact mem_recs.mpr ⟨(i, record), by simp, rfl⟩
      obtain ⟨array', e, l, hunlink, T', hrecs, -⟩ := T.unlink hl
      have hlt : homeAt ops key h.blength h.records record < h.records := I.mask_lt _ hpos
      have htotal' := total_cons_update hlt hrecs
      obtain ⟨hpow, hhalf, hlt', f, hhome⟩ := I.shrunk hm
      rw [hm] at T'
      obtain ⟨array'', chains'', hmove, T'', htotal''⟩ := T'.moveLast_spec hhome
      refine ⟨false, ⟨array'', m, Mysys.shrunk h.blength m⟩, ?_,
        ⟨hpow, hhalf, hlt', chains'', T'', ?_⟩, by simp [hmem]⟩
      · rw [hfind, Option.bind_some]
        simp only [hunlink, hm, Nat.add_sub_cancel]
        change (moveLast ops key array' h.blength (Mysys.shrunk h.blength m) m e).map _ = _
        rw [hmove]
        rfl
      · rw [htotal'', ← htotal, htotal', hm, Multiset.erase_cons_head]

/-! ## Update -/

theorem homeAt_update_of_ne {blength : ℕ} {d : ρ} {newKey : κ} (hd : d ≠ record) :
    homeAt ops (Function.update key record newKey) blength n d = homeAt ops key blength n d := by
  rw [homeAt, recHashnr, update_of_ne hd, homeAt, recHashnr]

theorem Hash.Inv.other (I : h.Inv ops key content) (record : ρ) (newKey : κ) :
    ∃ other, (myHashFirst ops (Function.update key record newKey) h newKey).bind
        (otherRecord ops (Function.update key record newKey) h record newKey (h.records + 1)) =
          some other ∧
      (other = true ↔ ∃ d ∈ content, d ≠ record ∧ ops.same (key d) newKey = true) := by
  obtain ⟨key', hkey'⟩ : ∃ key', Function.update key record newKey = key' := ⟨_, rfl⟩
  obtain ⟨chains, T, htotal⟩ := I.table
  obtain ⟨b, hb⟩ : ∃ b, myHashMask (ops.calcHash newKey) h.blength h.records = b := ⟨_, rfl⟩
  have hrec : homeAt ops key' h.blength h.records record = b := by
    rw [← hb, ← hkey', homeAt, recHashnr, update_self]
  have hne : ∀ d, d ≠ record → homeAt ops key' h.blength h.records d =
      homeAt ops key h.blength h.records d := fun d hd => hkey' ▸ homeAt_update_of_ne hd
  -- the records that the search passes on a chain, and those it has to find
  have hfound : ∀ {c e i l}, (∀ p ∈ (i, e) :: l, p ∈ chains c) →
      ops.same (key' e) newKey = true → ∀ d ∈ e :: matching ops key' newKey l, d ≠ record →
        ∃ d ∈ content, d ≠ record ∧ ops.same (key d) newKey = true := by
    intro c e i l hl hsame d hd hdr
    have hhead : matching ops key' newKey ([] ++ (i, e) :: l) = e :: matching ops key' newKey l :=
      matching_append_cons hsame (by simp)
    rw [← hhead, nil_append] at hd
    obtain ⟨hmem, hsame⟩ := mem_filter.mp hd
    obtain ⟨p, hp, rfl⟩ := mem_map.mp hmem
    rw [← hkey', update_of_ne hdr] at hsame
    refine ⟨p.2, ?_, hdr, hsame⟩
    rw [← htotal, T.mem_total, T.home_eq c p (hl p hp)]
    exact mem_recs.mpr ⟨p, hl p hp, rfl⟩
  have hall : ∀ d ∈ content, d ≠ record → ops.same (key d) newKey = true →
      d ∈ matching ops key' newKey (chains b) := by
    intro d hd hdr hsame
    refine mem_filter.mpr ⟨?_, ?_⟩
    · rwa [← htotal, T.mem_total, homeAt_of_same hsame, hb] at hd
    · rw [← hkey', update_of_ne hdr]
      exact hsame
  rw [hkey']
  cases hl : chains b with
  | nil =>
    have hnone : ¬ ∃ d ∈ content, d ≠ record ∧ ops.same (key d) newKey = true := by
      rintro ⟨d, hd, hdr, hsame⟩
      have hmem := hall d hd hdr hsame
      rw [hl] at hmem
      exact not_mem_nil hmem
    obtain ⟨r, hr, hlt⟩ := myHashFirst_ends T key' newKey (I.mask_lt _)
    cases r with
    | none =>
      exact ⟨false, by rw [hr, Option.bind_some, otherRecord],
        iff_of_false Bool.false_ne_true hnone⟩
    | some i =>
      obtain ⟨hi, hsame⟩ := hlt i rfl
      obtain ⟨l, hseg, hlen, hmem⟩ := exists_suffix T hi
      refine ⟨_, by rw [hr, Option.bind_some, otherRecord_seg hseg hlen.le (by omega)],
        iff_of_false (fun hother => hnone ?_) hnone⟩
      obtain ⟨e, he, her⟩ := of_decide_eq_true hother
      exact hfound hmem hsame e he her
  | cons p l =>
    have hp : p ∈ chains b := hl ▸ mem_cons_self
    have hphome : homeAt ops key' h.blength h.records p.2 = b := by
      by_cases hpr : p.2 = record
      · rw [hpr, hrec]
      · rw [hne _ hpr, T.home_eq b p hp]
    have hfirst := myHashFirst_of_chain T hb hl hphome
    have hseg := T.seg b
    have hlen := T.length_le b
    rw [hfirst, Option.bind_some]
    cases hmatch : firstMatch ops key' newKey (chains b) with
    | none =>
      refine ⟨false, by rw [otherRecord], iff_of_false Bool.false_ne_true ?_⟩
      rintro ⟨d, hd, hdr, hsame⟩
      have hmem := hall d hd hdr hsame
      rw [matching_eq_nil (firstMatch_eq_none hmatch)] at hmem
      exact not_mem_nil hmem
    | some j =>
      obtain ⟨l₁, e, l₂, hsplit, hsame, hnot⟩ := mem_of_firstMatch hmatch
      rw [hsplit] at hseg hlen
      rw [length_append, length_cons] at hlen
      refine ⟨_, otherRecord_seg (seg_append.mp hseg).2 (by omega) (by omega), ?_⟩
      rw [decide_eq_true_iff]
      constructor
      · rintro ⟨d, hd, hdr⟩
        exact hfound (c := b) (fun p hp => hsplit ▸ mem_append_right l₁ hp) hsame d hd hdr
      · rintro ⟨d, hd, hdr, hsame'⟩
        have hmem := hall d hd hdr hsame'
        rw [hsplit, matching_append_cons hsame hnot] at hmem
        exact ⟨d, hmem, hdr⟩

theorem Hash.Inv.update (I : h.Inv ops key content) (unique : Bool) (record : ρ) (newKey : κ)
    (hpos : h.records ≠ 0) (honce : content.count record ≤ 1) :
    ∃ failed h', myHashUpdate ops (Function.update key record newKey) unique h record
        (key record) = some (failed, h') ∧
      h'.Inv ops (if failed then key else Function.update key record newKey) content ∧
      (failed = false → ¬(unique = true ∧
        ∃ d ∈ content, d ≠ record ∧ ops.same (key d) newKey = true)) ∧
      (record ∈ content → failed = true → unique = true ∧
        ∃ d ∈ content, d ≠ record ∧ ops.same (key d) newKey = true) := by
  obtain ⟨other, hother, hiff⟩ : ∃ other,
      (if unique then (myHashFirst ops (Function.update key record newKey) h
          (Function.update key record newKey record)).bind
        (otherRecord ops (Function.update key record newKey) h record
          (Function.update key record newKey record) (h.records + 1))
      else some false) = some other ∧ (other = true ↔ unique = true ∧
        ∃ d ∈ content, d ≠ record ∧ ops.same (key d) newKey = true) := by
    cases unique with
    | false => exact ⟨false, rfl, by simp⟩
    | true =>
      obtain ⟨other, hrun, hiff⟩ := I.other record newKey
      refine ⟨other, ?_, by rw [hiff, eq_self, true_and]⟩
      rw [update_self]
      exact hrun
  rw [myHashUpdate, hother, Option.bind_some]
  cases other with
  | true =>
    exact ⟨true, h, rfl, I, fun hfailed => absurd hfailed.symm Bool.false_ne_true,
      fun _ _ => hiff.mp rfl⟩
  | false =>
    have hnone := mt hiff.mpr Bool.false_ne_true
    have hok : ∀ (P : Prop), false = true → P := fun P hfalse => absurd hfalse Bool.false_ne_true
    obtain ⟨chains, T, htotal⟩ := I.table
    obtain ⟨key', hkey'⟩ : ∃ key', Function.update key record newKey = key' := ⟨_, rfl⟩
    have hne : ∀ d, d ≠ record → homeAt ops key' h.blength h.records d =
        homeAt ops key h.blength h.records d := fun d hd => hkey' ▸ homeAt_update_of_ne hd
    have hidx : myHashMask (ops.calcHash (key record)) h.blength h.records =
        homeAt ops key h.blength h.records record := rfl
    have hnew : myHashMask (recHashnr ops key' record) h.blength h.records =
        homeAt ops key' h.blength h.records record := rfl
    rw [hkey']
    simp only [hidx, hnew]
    by_cases hsame : homeAt ops key h.blength h.records record =
        homeAt ops key' h.blength h.records record
    · refine ⟨false, h, if_pos hsame, ⟨I.pow, I.half_le, I.lt, chains, T.congr_home ?_, htotal⟩,
        fun _ => hnone, fun _ => hok _⟩
      intro d _
      simp only [Bool.false_eq_true, if_false]
      by_cases hd : d = record
      · rw [hd, hsame]
      · exact hne d hd
    · rw [if_neg hsame]
      rcases T.findRecord_spec (I.mask_lt _ hpos) with ⟨hnot, hfind⟩ | ⟨l₁, i, l₂, hl, hfind⟩
      · refine ⟨true, h, by rw [hfind]; rfl, I, fun hfailed => hok _ hfailed.symm,
          fun hmem _ => absurd hmem ?_⟩
        rwa [← htotal, T.mem_total]
      · obtain ⟨array', e, l, hunlink, T', hrecs, hdata⟩ := T.unlink hl
        have hlt : homeAt ops key h.blength h.records record < h.records := I.mask_lt _ hpos
        have htotal' := total_cons_update hlt hrecs
        have hcell : (h.array i).data = record := T.data_eq (p := (i, record))
          (by rw [hl]; simp)
        -- the record is not in the table while it is moved
        have hnot : record ∉ total h.records (Function.update chains
            (homeAt ops key h.blength h.records record) l) := by
          intro hmem
          rw [← htotal, htotal', Multiset.count_cons_self] at honce
          have := Multiset.count_pos.mpr hmem
          omega
        have T'' : Table (homeAt ops key' h.blength h.records) h.records (some e) array'
            (Function.update chains (homeAt ops key h.blength h.records record) l) :=
          T'.congr_home fun d hd => hne d fun hdr => hnot (hdr ▸ hd)
        obtain ⟨array'', chains'', hplace, T₃, htotal₃⟩ := T''.placeSecond_spec
          rfl (I.mask_lt _ hpos) hcell hdata
        refine ⟨false, ⟨array'', h.records, h.blength⟩, ?_, ⟨I.pow, I.half_le, I.lt, chains'', T₃,
          ?_⟩, fun _ => hnone, fun _ => hok _⟩
        · rw [hfind, Option.bind_some]
          simp only [hunlink]
          rw [hplace]
          rfl
        · rw [htotal₃, ← htotal']
          exact htotal

end Calls

end MySQL.Mysys
