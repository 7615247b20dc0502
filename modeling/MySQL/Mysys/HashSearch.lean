import MySQL.Mysys.HashMoves

/-!
# Searching a hash table

`my_hash_first` and `my_hash_next` go along one chain.
-/

namespace MySQL.Mysys

open Lib List

variable {ρ κ : Type*} {ops : KeyOps κ} {key : ρ → κ} {h : Hash ρ} {k : κ}
  {home : ρ → ℕ} {chains : ℕ → List (ℕ × ρ)} {p : ℕ × ρ} {l : List (ℕ × ρ)} {fuel : ℕ}

def firstMatch (ops : KeyOps κ) (key : ρ → κ) (k : κ) (l : List (ℕ × ρ)) : Option ℕ :=
  (l.find? fun p => ops.same (key p.2) k).map Prod.fst

theorem firstMatch_cons_of_same (hp : ops.same (key p.2) k = true) :
    firstMatch ops key k (p :: l) = some p.1 := by
  simp [firstMatch, hp]

theorem firstMatch_cons_of_not_same (hp : ¬ ops.same (key p.2) k = true) :
    firstMatch ops key k (p :: l) = firstMatch ops key k l := by
  simp [firstMatch, hp]

theorem nextLoop_seg (hseg : Seg h.array l none) (hfuel : l.length ≤ fuel) :
    nextLoop ops key h k fuel (first l none) = some (firstMatch ops key k l) := by
  induction l generalizing fuel with
  | nil => cases fuel <;> rfl
  | cons p l ih =>
    obtain ⟨fuel, rfl⟩ := Nat.exists_eq_succ_of_ne_zero
      (Nat.ne_zero_of_lt (Nat.lt_of_lt_of_le l.length.succ_pos hfuel))
    rw [first, nextLoop, hseg.1]
    by_cases hp : ops.same (key p.2) k = true
    · rw [if_pos hp, firstMatch_cons_of_same hp]
    · rw [if_neg hp, firstMatch_cons_of_not_same hp]
      exact ih hseg.2 (Nat.le_of_succ_le_succ hfuel)

theorem firstLoop_seg {flag : Bool} (hseg : Seg h.array (p :: l) none) (hfuel : l.length < fuel)
    (hflag : flag = true → homeAt ops key h.blength h.records p.2 = p.1) :
    firstLoop ops key h k fuel flag p.1 = some (firstMatch ops key k (p :: l)) := by
  induction fuel generalizing p l flag with
  | zero => exact absurd hfuel (Nat.not_lt_zero _)
  | succ fuel ih =>
    have hcell : h.array p.1 = ⟨first l none, p.2⟩ := hseg.1
    have hmask : ¬ (flag = true ∧
        myHashRecMask ops key ⟨first l none, p.2⟩ h.blength h.records ≠ p.1) := fun hf =>
      hf.2 (hflag hf.1)
    by_cases hp : ops.same (key p.2) k = true
    · simp only [firstLoop, hcell, hp, if_true, firstMatch_cons_of_same hp]
    · simp only [firstLoop, hcell, if_neg hp, if_neg hmask, firstMatch_cons_of_not_same hp]
      cases l with
      | nil => rfl
      | cons q l =>
        exact ih hseg.2 (Nat.lt_of_succ_lt_succ hfuel) fun hf => absurd hf Bool.false_ne_true

theorem myHashNext_seg {i : ℕ} {d : ρ} (hseg : Seg h.array ((i, d) :: l) none)
    (hlen : l.length ≤ h.records) :
    myHashNext ops key h k (some i) = some (firstMatch ops key k l) := by
  have hnext : (h.array i).next = first l none := congrArg Cell.next hseg.1
  rw [myHashNext, hnext, nextLoop_seg hseg.2 (hlen.trans (Nat.le_succ _))]

theorem mem_of_firstMatch {i : ℕ} (hi : firstMatch ops key k l = some i) :
    ∃ l₁ d l₂, l = l₁ ++ (i, d) :: l₂ ∧ ops.same (key d) k = true ∧
      ∀ p ∈ l₁, ops.same (key p.2) k = false := by
  obtain ⟨⟨j, d⟩, hfind, rfl⟩ := Option.map_eq_some_iff.mp hi
  obtain ⟨hsame, l₁, l₂, rfl, hnot⟩ := List.find?_eq_some_iff_append.mp hfind
  exact ⟨l₁, d, l₂, rfl, hsame, fun p hp => by simpa using hnot p hp⟩

theorem firstMatch_eq_none (hnone : firstMatch ops key k l = none) :
    ∀ p ∈ l, ops.same (key p.2) k = false := by
  intro p hp
  have hfind := Option.map_eq_none_iff.mp hnone
  simpa using List.find?_eq_none.mp hfind p hp

/-! ## The whole search -/

/-- What at most `n` calls of `my_hash_next` return. -/
def nextAll (ops : KeyOps κ) (key : ρ → κ) (h : Hash ρ) (k : κ) : ℕ → Option ℕ → Option (List ρ)
  | 0, _ => some []
  | n + 1, current =>
    (myHashNext ops key h k current).bind fun
      | none => some []
      | some idx => (nextAll ops key h k n (some idx)).map fun l => (h.array idx).data :: l

/-- What `my_hash_first` and then at most `n` calls of `my_hash_next` return. -/
def searchAll (ops : KeyOps κ) (key : ρ → κ) (h : Hash ρ) (k : κ) (n : ℕ) : Option (List ρ) :=
  (myHashFirst ops key h k).bind fun
    | none => some []
    | some idx => (nextAll ops key h k n (some idx)).map fun l => (h.array idx).data :: l

def matching (ops : KeyOps κ) (key : ρ → κ) (k : κ) (l : List (ℕ × ρ)) : List ρ :=
  (l.map Prod.snd).filter fun d => ops.same (key d) k

theorem matching_eq_nil (hnot : ∀ p ∈ l, ops.same (key p.2) k = false) :
    matching ops key k l = [] := by
  rw [matching, filter_eq_nil_iff]
  intro d hd
  obtain ⟨p, hp, rfl⟩ := List.mem_map.mp hd
  rw [hnot p hp]
  exact Bool.false_ne_true

theorem matching_append_cons {l₁ l₂ : List (ℕ × ρ)} (hp : ops.same (key p.2) k = true)
    (hnot : ∀ q ∈ l₁, ops.same (key q.2) k = false) :
    matching ops key k (l₁ ++ p :: l₂) = p.2 :: matching ops key k l₂ := by
  have hnil : (l₁.map Prod.snd).filter (fun d => ops.same (key d) k) = [] := matching_eq_nil hnot
  rw [matching, map_append, map_cons, filter_append, hnil, nil_append,
    filter_cons, if_pos hp, matching]

theorem nextAll_seg {i n : ℕ} {d : ρ} (hseg : Seg h.array ((i, d) :: l) none)
    (hlen : l.length ≤ h.records) (hn : (matching ops key k l).length < n) :
    nextAll ops key h k n (some i) = some (matching ops key k l) := by
  induction hl : l.length using Nat.strong_induction_on generalizing i d l n with
  | _ len ih =>
    obtain ⟨n, rfl⟩ := Nat.exists_eq_succ_of_ne_zero (Nat.ne_zero_of_lt hn)
    rw [nextAll, myHashNext_seg hseg hlen, Option.bind_some]
    cases hmatch : firstMatch ops key k l with
    | none => rw [matching_eq_nil (firstMatch_eq_none hmatch)]
    | some j =>
      obtain ⟨l₁, e, l₂, rfl, hsame, hnot⟩ := mem_of_firstMatch hmatch
      have hseg₂ := (seg_append.mp hseg.2).2
      rw [matching_append_cons hsame hnot] at hn ⊢
      rw [length_append, length_cons] at hlen hl
      have hrec := ih l₂.length (by omega) hseg₂ (by omega) (Nat.lt_of_succ_lt_succ hn) rfl
      have hdata : (h.array j).data = e := congrArg Cell.data hseg₂.1
      dsimp only
      rw [hrec, Option.map_some, hdata]

theorem otherRecord_seg [DecidableEq ρ] {i n : ℕ} {d record : ρ}
    (hseg : Seg h.array ((i, d) :: l) none) (hlen : l.length ≤ h.records) (hn : l.length < n) :
    otherRecord ops key h record k n (some i) =
      some (decide (∃ e ∈ d :: matching ops key k l, e ≠ record)) := by
  induction hl : l.length using Nat.strong_induction_on generalizing i d l n with
  | _ len ih =>
    obtain ⟨n, rfl⟩ := Nat.exists_eq_succ_of_ne_zero (Nat.ne_zero_of_lt hn)
    have hcell : h.array i = ⟨first l none, d⟩ := hseg.1
    rw [otherRecord, myHashNext_seg hseg hlen, hcell, Option.bind_some]
    by_cases hd : d ≠ record
    · simp [hd]
    · cases hmatch : firstMatch ops key k l with
      | none =>
        rw [matching_eq_nil (firstMatch_eq_none hmatch)]
        cases n <;> simp [otherRecord, hd]
      | some j =>
        obtain ⟨l₁, e, l₂, rfl, hsame, hnot⟩ := mem_of_firstMatch hmatch
        rw [length_append, length_cons] at hlen hl hn
        rw [ih l₂.length (by omega) (seg_append.mp hseg.2).2 (by omega) (by omega) rfl,
          matching_append_cons hsame hnot]
        simp [hd]

/-! ## Search in a table -/

theorem myHashFirst_of_foreign {b : ℕ} (hb : myHashMask (ops.calcHash k) h.blength h.records = b)
    (hpos : h.records ≠ 0) (hdata : ops.same (key (h.array b).data) k = false)
    (hother : homeAt ops key h.blength h.records (h.array b).data ≠ b) :
    myHashFirst ops key h k = some none := by
  have hmask : true = true ∧
      myHashRecMask ops key (h.array b) h.blength h.records ≠ b := ⟨rfl, hother⟩
  rw [myHashFirst, if_pos hpos, hb, firstLoop, hdata, if_neg Bool.false_ne_true, if_pos hmask]

section Table

variable (T : Table home h.records none h.array chains)

include T

theorem exists_suffix {i : ℕ} (hi : i < h.records) :
    ∃ l, Seg h.array ((i, (h.array i).data) :: l) none ∧ l.length < h.records ∧
      ∀ p ∈ (i, (h.array i).data) :: l, p ∈ chains (home (h.array i).data) := by
  have hused : Used h.records none i := ⟨hi, by simp⟩
  obtain ⟨l₁, l₂, hl⟩ := append_of_mem (T.mem_chain hused)
  have hseg := T.seg (home (h.array i).data)
  have hlen := T.length_le (home (h.array i).data)
  rw [hl] at hseg hlen
  rw [length_append, length_cons] at hlen
  refine ⟨l₂, (seg_append.mp hseg).2, by omega, fun p hp => ?_⟩
  rw [hl]
  exact mem_append_right _ hp

theorem myHashFirst_of_chain {b : ℕ} (hb : myHashMask (ops.calcHash k) h.blength h.records = b)
    (hl : chains b = p :: l) (hp : homeAt ops key h.blength h.records p.2 = b) :
    myHashFirst ops key h k = some (firstMatch ops key k (chains b)) := by
  have hpb : p.1 = b := T.head b p (by rw [hl]; rfl)
  have hpos : h.records ≠ 0 := by
    have := (T.used (hl ▸ mem_cons_self)).1
    omega
  have hlen := T.length_le b
  have hseg := T.seg b
  rw [hl] at hlen hseg ⊢
  rw [myHashFirst, if_pos hpos, hb, ← hpb]
  exact firstLoop_seg hseg (Nat.lt_succ_of_lt hlen) fun _ => hp.trans hpb.symm

theorem myHashFirst_ends (key : ρ → κ) (k : κ)
    (hlt : h.records ≠ 0 → myHashMask (ops.calcHash k) h.blength h.records < h.records) :
    ∃ r, myHashFirst ops key h k = some r ∧
      ∀ i, r = some i → i < h.records ∧ ops.same (key (h.array i).data) k = true := by
  by_cases hpos : h.records = 0
  · exact ⟨none, if_neg (not_not.mpr hpos), fun i hi => absurd hi (by simp)⟩
  · obtain ⟨b, hb⟩ : ∃ b, myHashMask (ops.calcHash k) h.blength h.records = b := ⟨_, rfl⟩
    have hbn := hlt hpos
    rw [hb] at hbn
    obtain ⟨l, hseg, hlen, hmem⟩ := exists_suffix T hbn
    by_cases hown : homeAt ops key h.blength h.records (h.array b).data = b
    · refine ⟨firstMatch ops key k ((b, (h.array b).data) :: l), ?_, fun i hi => ?_⟩
      · rw [myHashFirst, if_pos hpos, hb]
        exact firstLoop_seg hseg (Nat.lt_succ_of_lt hlen) fun _ => hown
      · obtain ⟨l₁, d, l₂, hl, hsame, -⟩ := mem_of_firstMatch hi
        have hi' := hmem (i, d) (by rw [hl]; simp)
        have hdata : (h.array i).data = d := T.data_eq hi'
        exact ⟨(T.used hi').1, hdata ▸ hsame⟩
    · cases hsame : ops.same (key (h.array b).data) k with
      | false =>
        exact ⟨none, myHashFirst_of_foreign hb hpos hsame hown, fun i hi => absurd hi (by simp)⟩
      | true =>
        refine ⟨some b, ?_, fun i hi => ?_⟩
        · rw [myHashFirst, if_pos hpos, hb, firstLoop, hsame, if_pos rfl]
        · obtain rfl := Option.some_inj.mp hi
          exact ⟨hbn, hsame⟩

end Table

section

variable (T : Table (homeAt ops key h.blength h.records) h.records none h.array chains)
  (hlt : h.records ≠ 0 → myHashMask (ops.calcHash k) h.blength h.records < h.records)

include T hlt

theorem myHashFirst_spec :
    myHashFirst ops key h k = some (firstMatch ops key k
      (chains (myHashMask (ops.calcHash k) h.blength h.records))) := by
  obtain ⟨b, hb⟩ : ∃ b, myHashMask (ops.calcHash k) h.blength h.records = b := ⟨_, rfl⟩
  rw [hb]
  cases hl : chains b with
  | cons p l =>
    rw [← hl]
    exact myHashFirst_of_chain T hb hl (T.home_eq b p (hl ▸ mem_cons_self))
  | nil =>
    by_cases hpos : h.records = 0
    · exact if_neg (not_not.mpr hpos)
    · rw [hb] at hlt
      have hown : homeAt ops key h.blength h.records (h.array b).data ≠ b := by
        intro hown
        obtain ⟨l, hl'⟩ := T.cons_of_home ⟨hlt hpos, by simp⟩ hown
        rw [hl] at hl'
        exact absurd hl'.symm (cons_ne_nil _ _)
      refine myHashFirst_of_foreign hb hpos ?_ hown
      rw [Bool.eq_false_iff]
      intro hsame
      apply hown
      rw [homeAt, recHashnr, ops.calcHash_eq _ _ hsame, hb]

theorem searchAll_spec {n : ℕ} (hn : (matching ops key k
      (chains (myHashMask (ops.calcHash k) h.blength h.records))).length ≤ n) :
    searchAll ops key h k n = some (matching ops key k
      (chains (myHashMask (ops.calcHash k) h.blength h.records))) := by
  rw [searchAll, myHashFirst_spec T hlt, Option.bind_some]
  have hseg := T.seg (myHashMask (ops.calcHash k) h.blength h.records)
  have hlen := T.length_le (myHashMask (ops.calcHash k) h.blength h.records)
  generalize chains (myHashMask (ops.calcHash k) h.blength h.records) = l at hn hseg hlen ⊢
  cases hmatch : firstMatch ops key k l with
  | none => rw [matching_eq_nil (firstMatch_eq_none hmatch)]
  | some j =>
    obtain ⟨l₁, e, l₂, rfl, hsame, hnot⟩ := mem_of_firstMatch hmatch
    have hseg₂ := (seg_append.mp hseg).2
    rw [length_append, length_cons] at hlen
    rw [matching_append_cons hsame hnot] at hn ⊢
    have hdata : (h.array j).data = e := congrArg Cell.data hseg₂.1
    dsimp only
    rw [nextAll_seg hseg₂ (by omega) hn, Option.map_some, hdata]

end

end MySQL.Mysys
