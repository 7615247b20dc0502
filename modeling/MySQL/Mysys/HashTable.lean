import MySQL.Mysys.Hash

/-!
# The chains of a hash table

A table is described by its chains: lists of slots and records, one for each first slot.  While a
record is moved, one slot of the array may be free.
-/

namespace MySQL.Mysys

open Lib List Function

/-! ## The mask -/

section Mask

variable {hashnr k r : ℕ}

theorem maskBits_two_pow (hashnr k : ℕ) : maskBits hashnr (2 ^ k) = hashnr % 2 ^ k := by
  rw [maskBits, if_neg (Nat.two_pow_pos k).ne', Nat.and_two_pow_sub_one_eq_mod]

theorem myHashMask_eq (hashnr k r : ℕ) :
    myHashMask hashnr (2 ^ (k + 1)) r =
      if hashnr % 2 ^ (k + 1) < r then hashnr % 2 ^ (k + 1) else hashnr % 2 ^ k := by
  have hshift : 2 ^ (k + 1) >>> 1 = 2 ^ k := by
    rw [Nat.shiftRight_eq_div_pow, pow_succ, Nat.mul_div_cancel _ Nat.two_pos]
  rw [myHashMask, hshift, maskBits_two_pow, maskBits_two_pow]

theorem mod_two_pow_succ (hashnr k : ℕ) :
    hashnr % 2 ^ (k + 1) = hashnr % 2 ^ k + if hashnr &&& 2 ^ k = 0 then 0 else 2 ^ k := by
  rw [Nat.mod_pow_succ, Nat.and_two_pow, Nat.testBit_eq_decide_div_mod_eq]
  rcases Nat.mod_two_eq_zero_or_one (hashnr / 2 ^ k) with h | h
  · simp [h]
  · simp [h]

theorem myHashMask_lt (hr : 2 ^ k ≤ r) : myHashMask hashnr (2 ^ (k + 1)) r < r := by
  rw [myHashMask_eq]
  split_ifs with h
  · exact h
  · exact (Nat.mod_lt _ (Nat.two_pow_pos k)).trans_le hr

theorem myHashMask_succ (hle : 2 ^ k ≤ r) (hlt : r < 2 ^ (k + 1)) :
    myHashMask hashnr (2 ^ (k + 1)) (r + 1) =
      if myHashMask hashnr (2 ^ (k + 1)) r = r - 2 ^ k ∧ hashnr &&& 2 ^ k ≠ 0 then r
      else myHashMask hashnr (2 ^ (k + 1)) r := by
  have hmod := mod_two_pow_succ hashnr k
  rw [myHashMask_eq, myHashMask_eq]
  by_cases hbit : hashnr &&& 2 ^ k = 0
  · rw [if_pos hbit] at hmod
    simp only [ne_eq, hbit, not_true, and_false, if_false]
    rw [if_pos (by omega), if_pos (by omega)]
  · rw [if_neg hbit] at hmod
    split_ifs <;> omega

theorem myHashMask_double (hashnr k : ℕ) :
    myHashMask hashnr (2 ^ (k + 1)) (2 ^ k) = myHashMask hashnr (2 ^ k) (2 ^ k) := by
  have hmod := mod_two_pow_succ hashnr k
  have hlt := Nat.mod_lt hashnr (Nat.two_pow_pos k)
  rw [myHashMask_eq, myHashMask, maskBits_two_pow]
  split_ifs at hmod ⊢ <;> omega

theorem myHashMask_pred (hle : 2 ^ k ≤ r) (hlt : r < 2 ^ (k + 1)) :
    myHashMask hashnr (2 ^ (k + 1)) r =
      if myHashMask hashnr (2 ^ (k + 1)) (r + 1) = r then r - 2 ^ k
      else myHashMask hashnr (2 ^ (k + 1)) (r + 1) := by
  have hmask : myHashMask hashnr (2 ^ (k + 1)) r < r := myHashMask_lt hle
  rw [myHashMask_succ hle hlt]
  split_ifs with h₁ h₂ h₂
  · exact h₁.1
  · exact absurd rfl h₂
  · exact absurd h₂ hmask.ne
  · rfl

end Mask

/-! ## Tables -/

variable {ρ : Type*}

def homeAt {κ : Type*} (ops : KeyOps κ) (key : ρ → κ) (blength n : ℕ) (d : ρ) : ℕ :=
  myHashMask (recHashnr ops key d) blength n

def slots (l : List (ℕ × ρ)) : List ℕ := l.map Prod.fst

@[simp] theorem slots_nil : slots ([] : List (ℕ × ρ)) = [] := rfl

@[simp] theorem slots_cons (p : ℕ × ρ) (l : List (ℕ × ρ)) : slots (p :: l) = p.1 :: slots l := rfl

@[simp] theorem slots_append (l m : List (ℕ × ρ)) : slots (l ++ m) = slots l ++ slots m :=
  map_append

theorem mem_slots {l : List (ℕ × ρ)} {i : ℕ} : i ∈ slots l ↔ ∃ p ∈ l, p.1 = i := List.mem_map

theorem mem_slots_of_mem {l : List (ℕ × ρ)} {p : ℕ × ρ} (h : p ∈ l) : p.1 ∈ slots l :=
  List.mem_map_of_mem h

def Used (n : ℕ) (free : Option ℕ) (i : ℕ) : Prop := i < n ∧ free ≠ some i

/-- The array of `n` slots, of which one may be free, is made of the chains.  `home` is the slot
where the chain of a record begins. -/
structure Table (home : ρ → ℕ) (n : ℕ) (free : Option ℕ) (array : ℕ → HashLink ρ)
    (chains : ℕ → List (ℕ × ρ)) : Prop where
  seg : ∀ b, Seg array (chains b) none
  head : ∀ b p, (chains b).head? = some p → p.1 = b
  home_eq : ∀ b, ∀ p ∈ chains b, home p.2 = b
  used_iff : ∀ i, Used n free i ↔ ∃ b, i ∈ slots (chains b)
  free_lt : ∀ i, free = some i → i < n

/-- The chain of the records whose home is `b`. -/
structure ChainAt (home : ρ → ℕ) (array : ℕ → HashLink ρ) (b : ℕ) (l : List (ℕ × ρ)) : Prop where
  seg : Seg array l none
  head : ∀ p, l.head? = some p → p.1 = b
  home_eq : ∀ p ∈ l, home p.2 = b

namespace Table

variable {home home' : ρ → ℕ} {n n' : ℕ} {free free' : Option ℕ} {array array' : ℕ → HashLink ρ}
  {chains : ℕ → List (ℕ × ρ)} {b c i : ℕ} {p q : ℕ × ρ} {l m : List (ℕ × ρ)}

section

variable (T : Table home n free array chains)

include T

theorem used (hp : p ∈ chains b) : Used n free p.1 :=
  (T.used_iff p.1).mpr ⟨b, mem_slots_of_mem hp⟩

theorem data_eq (hp : p ∈ chains b) : (array p.1).data = p.2 := (T.seg b).data_eq hp

theorem chain_unique (hb : i ∈ slots (chains b)) (hc : i ∈ slots (chains c)) : b = c := by
  obtain ⟨p, hp, rfl⟩ := mem_slots.mp hb
  obtain ⟨q, hq, hqp⟩ := mem_slots.mp hc
  rw [← T.home_eq b p hp, ← T.home_eq c q hq, ← T.data_eq hp, ← T.data_eq hq, hqp]

theorem mem_chain (hi : Used n free i) : (i, (array i).data) ∈ chains (home (array i).data) := by
  obtain ⟨b, hb⟩ := (T.used_iff i).mp hi
  obtain ⟨p, hp, rfl⟩ := mem_slots.mp hb
  rw [T.data_eq hp, T.home_eq b p hp]
  exact hp

theorem nodup_slots (b : ℕ) : (slots (chains b)).Nodup :=
  (T.seg b).nodup

end

theorem not_mem_of_free (T : Table home n (some i) array chains) (b : ℕ) :
    i ∉ slots (chains b) := fun hi => ((T.used_iff i).mpr ⟨b, hi⟩).2 rfl

section

variable (T : Table home n free array chains)

include T

theorem exists_cons (hp : p ∈ chains b) : ∃ d l, chains b = (b, d) :: l := by
  cases hl : chains b with
  | nil => rw [hl] at hp; exact absurd hp not_mem_nil
  | cons q l =>
    have hq : q.1 = b := T.head b q (by rw [hl]; rfl)
    exact ⟨q.2, l, by rw [← hq]⟩

theorem lt_of_mem (hp : p ∈ chains b) : b < n := by
  obtain ⟨d, l, hl⟩ := T.exists_cons hp
  exact (T.used (hl ▸ mem_cons_self)).1

theorem cons_of_home (hi : Used n free i)
    (hhome : home (array i).data = i) : ∃ l, chains i = (i, (array i).data) :: l := by
  have hmem := T.mem_chain hi
  rw [hhome] at hmem
  obtain ⟨d, l, hl⟩ := T.exists_cons hmem
  have hd : (array i).data = d := T.data_eq (hl ▸ mem_cons_self)
  exact ⟨l, by rw [hl, hd]⟩

theorem nil_of_not_home (h : Used n free i → home (array i).data ≠ i) : chains i = [] := by
  cases hl : chains i with
  | nil => rfl
  | cons q l =>
    have hmem : q ∈ chains i := hl ▸ mem_cons_self
    have hq : q.1 = i := T.head i q (by rw [hl]; rfl)
    have hused := T.used hmem
    have hdata := T.data_eq hmem
    rw [hq] at hused hdata
    exact absurd (hdata ▸ T.home_eq i q hmem) (h hused)

end

theorem nil_of_free (T : Table home n (some i) array chains) : chains i = [] :=
  T.nil_of_not_home fun h => absurd rfl h.2

section

variable (T : Table home n free array chains)

include T

theorem nil_of_le (h : n ≤ i) : chains i = [] :=
  T.nil_of_not_home fun hi => absurd hi.1 (Nat.not_lt.mpr h)

theorem nodup_pair (hbc : b ≠ c) : (slots (chains b) ++ slots (chains c)).Nodup :=
  List.Nodup.append (T.nodup_slots b) (T.nodup_slots c) fun _ hb hc => hbc (T.chain_unique hb hc)

/-- Two chains are replaced. `u` and `v` are the slots below `N` without a record before and
afterwards. -/
theorem setPair (hbc : b ≠ c) {N : ℕ} {u v : List ℕ}
    (hhome : ∀ d, home d ≠ b → home d ≠ c → home' d = home d)
    (harray : ∀ i, i ∉ slots (chains b) → i ∉ slots (chains c) → i ∉ u → array' i = array i)
    (hl : ChainAt home' array' b l) (hm : ChainAt home' array' c m)
    (hun : ∀ i, Used n free i ↔ i < N ∧ i ∉ u) (hun' : ∀ i, Used n' free' i ↔ i < N ∧ i ∉ v)
    (hlt : ∀ i ∈ u, i < N) (hnodup : u.Nodup) (hfree : ∀ i, free' = some i → i < n')
    (hperm : (v ++ (slots l ++ slots m)).Perm (u ++ (slots (chains b) ++ slots (chains c)))) :
    Table home' n' free' array' (update (update chains b l) c m) := by
  have hused : ∀ {x i}, i ∈ slots (chains x) → i < N ∧ i ∉ u := fun {x i} hi =>
    (hun i).mp ((T.used_iff i).mpr ⟨x, hi⟩)
  have hother : ∀ x, x ≠ b → x ≠ c → ChainAt home' array' x (chains x) := by
    refine fun x hxb hxc => ⟨(T.seg x).congr fun i hi => ?_, T.head x, fun p hp => ?_⟩
    · exact harray i (fun h => hxb (T.chain_unique hi h)) (fun h => hxc (T.chain_unique hi h))
        (hused hi).2
    · have hp := T.home_eq x p hp
      rw [hhome p.2 (hp ▸ hxb) (hp ▸ hxc), hp]
  have hold : ∀ i ∈ slots (chains b) ++ slots (chains c), i < N ∧ i ∉ u := fun i hi =>
    (mem_append.mp hi).elim hused hused
  have hnodup' : (v ++ (slots l ++ slots m)).Nodup := hperm.nodup_iff.mpr
    (hnodup.append (T.nodup_pair hbc) fun i hi h => (hold i h).2 hi)
  have hnew : ∀ i ∈ slots l ++ slots m, i < N ∧ i ∉ v := fun i hi =>
    ⟨(mem_append.mp (hperm.mem_iff.mp (mem_append_right _ hi))).elim (hlt i) fun h => (hold i h).1,
      fun h => (nodup_append.mp hnodup').2.2 i h i hi rfl⟩
  have hall : ∀ x, ChainAt home' array' x (update (update chains b l) c m x) ∧
      ∀ i ∈ slots (update (update chains b l) c m x), i < N ∧ i ∉ v := by
    intro x
    by_cases hxc : x = c
    · rw [hxc, update_self]
      exact ⟨hm, fun i hi => hnew i (mem_append_right _ hi)⟩
    · rw [update_of_ne hxc]
      by_cases hxb : x = b
      · rw [hxb, update_self]
        exact ⟨hl, fun i hi => hnew i (mem_append_left _ hi)⟩
      · rw [update_of_ne hxb]
        refine ⟨hother x hxb hxc, fun i hi => ⟨(hused hi).1, fun h => ?_⟩⟩
        rcases mem_append.mp (hperm.mem_iff.mp (mem_append_left _ h)) with h | h
        · exact (hused hi).2 h
        · exact (mem_append.mp h).elim (fun h => hxb (T.chain_unique hi h)) fun h =>
            hxc (T.chain_unique hi h)
  refine ⟨fun x => (hall x).1.seg, fun x => (hall x).1.head, fun x => (hall x).1.home_eq,
    fun i => ?_,
    hfree⟩
  rw [hun']
  refine ⟨fun ⟨hi, hnot⟩ => ?_, fun ⟨x, hx⟩ => (hall x).2 i hx⟩
  by_cases hchanged : i ∈ u ++ (slots (chains b) ++ slots (chains c))
  · rcases mem_append.mp ((mem_append.mp (hperm.mem_iff.mpr hchanged)).resolve_left hnot) with h | h
    · exact ⟨b, by rwa [update_of_ne hbc, update_self]⟩
    · exact ⟨c, by rwa [update_self]⟩
  · rw [mem_append, mem_append, not_or, not_or] at hchanged
    obtain ⟨x, hx⟩ := (T.used_iff i).mp ((hun i).mpr ⟨hi, hchanged.1⟩)
    have hxb : x ≠ b := fun h => hchanged.2.1 (h ▸ hx)
    have hxc : x ≠ c := fun h => hchanged.2.2 (h ▸ hx)
    exact ⟨x, by rwa [update_of_ne hxc, update_of_ne hxb]⟩

theorem setChain (hb : b < n)
    (harray : ∀ i, i ∉ slots (chains b) → free ≠ some i → array' i = array i)
    (hl : ChainAt home array' b l)
    (hperm : (free'.toList ++ slots l).Perm (free.toList ++ slots (chains b))) :
    Table home n free' array' (update chains b l) := by
  have hnil : chains n = [] := T.nil_of_le le_rfl
  have hkeep : update (update chains b l) n [] = update chains b l := by
    rw [update_eq_iff]
    exact ⟨by rw [update_of_ne hb.ne', hnil], fun _ _ => rfl⟩
  have hlt : ∀ i ∈ free.toList, i < n := fun i hi => T.free_lt i (Option.mem_toList.mp hi)
  have hun (f : Option ℕ) (i : ℕ) : Used n f i ↔ i < n ∧ i ∉ f.toList := by
    rw [Used, Option.mem_toList]
  rw [← hkeep]
  refine T.setPair hb.ne (fun _ _ _ => rfl) (fun i hi _ hun => harray i hi fun h => ?_) hl
    ⟨seg_nil, by simp, by simp⟩ (hun free) (hun free') hlt (by cases free <;> simp)
    (fun i hi => ?_) ?_
  · exact hun (Option.mem_toList.mpr h)
  · have hi := hperm.mem_iff.mp (mem_append_left _ (Option.mem_toList.mpr hi))
    rcases mem_append.mp hi with h | h
    · exact hlt i h
    · exact ((T.used_iff i).mpr ⟨b, h⟩).1
  · rwa [hnil, slots_nil, append_nil, append_nil]

end

end Table

end MySQL.Mysys
