import MySQL.Sql.Sp.Execution
import MySQL.Sql.Sp.Marking

/-!
# The program after marking

Marking moves destinations along the unconditional jumps of the program it was given, to
instructions that are kept; and whatever an instruction that is marked can go on to is marked too,
or is a jump to the next instruction.
-/

namespace MySQL.Sql.Sp

open Lib List Marking

variable {α : Type*} {code : List (Op α)} {h : Head α} {s s' : Marking α} {leads : List ℕ}
  {i k d c e t fuel : ℕ}

namespace Head

/-- The instructions are the ones of `code`, with destinations moved on along jumps. -/
structure Rewrites (code : List (Op α)) (h : Head α) : Prop where
  elements : h.elements = code.length
  kind : ∀ k, (h.instr k).kind = (code.getD k default).kind
  dest : ∀ k, Leads code (code.getD k default).dest (h.instr k).dest
  cont : ∀ k, Leads code (code.getD k default).contDest (h.instr k).contDest
  dest_eq : ∀ k, (h.instr k).kind.cutsDest = false → (h.instr k).dest = (code.getD k default).dest

theorem Rewrites.load (code : List (Op α)) : Rewrites code (load code) :=
  ⟨rfl, fun _ => rfl, fun _ => .refl, fun _ => .refl, fun _ _ => rfl⟩

theorem Rewrites.leads_of_chainEnd (hr : Rewrites code h) (hd : h.ChainEnd i d e) :
    Leads code d e := by
  induction hd with
  | here => exact .refl
  | @step x e hx _ ih =>
    simp only [ShortcutStop, not_forall] at hx
    obtain ⟨hlt, hk, -⟩ := hx
    have hjump : Silent code x := silent_iff.mpr ⟨hr.elements ▸ hlt, hr.kind x ▸ hk⟩
    exact .head ⟨not_not.mpr hjump, rfl⟩ ((hr.dest x).trans ih)

theorem Rewrites.markWith (hr : Rewrites code h) (hcut : h.CutsTo i d c) :
    Rewrites code (markWith h leads i d c).head := by
  refine ⟨?_, fun k => ?_, fun k => ?_, fun k => ?_, fun k hk => ?_⟩
  · rw [markWith_elements, hr.elements]
  · rw [markWith_kind hcut, hr.kind]
  · by_cases hki : k = i
    · rw [hki, markWith_instr_self hcut]
      split
      next hd => exact (hr.dest i).trans (hr.leads_of_chainEnd (hcut.dest hd))
      next => exact hr.dest i
    · rw [markWith_instr_of_ne hki]
      exact hr.dest k
  · by_cases hki : k = i
    · rw [hki, markWith_instr_self hcut]
      dsimp only
      split
      next hc => exact (hr.cont i).trans (hr.leads_of_chainEnd (hcut.cont hc))
      next => exact hr.cont i
    · rw [markWith_instr_of_ne hki]
      exact hr.cont k
  · rw [markWith_kind hcut] at hk
    by_cases hki : k = i
    · subst hki
      rw [markWith_instr_self hcut]
      rw [if_neg (by simp [hk])]
      exact hr.dest_eq k hk
    · rw [markWith_instr_of_ne hki]
      exact hr.dest_eq k hk

/-! ### Destinations of marked instructions -/

/-- A jump to `e` has nowhere further to go: `e` is outside, not a jump, or a jump to itself. -/
def Solid (h : Head α) (e : ℕ) : Prop :=
  e < h.elements → (h.instr e).kind = .jump → (h.instr e).dest = e

/-- The destinations of the instruction `k`, once it is marked, and the instructions they are noted
down as. -/
structure Aimed (h : Head α) (k : ℕ) : Prop where
  dest : (h.instr k).marked → (h.instr k).kind.cutsDest → h.Solid (h.instr k).dest
  cont : (h.instr k).marked → (h.instr k).kind.cutsCont → h.Solid (h.instr k).contDest
  optdest : (h.instr k).marked → (h.instr k).kind.cutsDest →
    (h.instr k).optdest = h.getInstr (h.instr k).dest
  contOptdest : (h.instr k).marked → (h.instr k).kind.cutsCont →
    (h.instr k).contOptdest = h.getInstr (h.instr k).contDest
  no_optdest : (h.instr k).kind.cutsDest = false ∨
    (h.instr k).marked = false ∧ (h.instr k).kind.isJump = false → (h.instr k).optdest = none
  no_contOptdest : (h.instr k).marked = false → (h.instr k).contOptdest = none

theorem Aimed.load (code : List (Op α)) (k : ℕ) : (load code).Aimed k where
  dest hk := nomatch hk
  cont hk := nomatch hk
  optdest hk := nomatch hk
  contOptdest hk := nomatch hk
  no_optdest _ := rfl
  no_contOptdest _ := rfl

theorem solid_of_chainEnd (hcut : h.CutsTo i d c) (he : h.ChainEnd i k e)
    (hjump : (h.instr i).kind = .jump → e = d) : (markWith h leads i d c).head.Solid e := by
  intro hlt hk
  rw [markWith_elements] at hlt
  rw [markWith_kind hcut] at hk
  by_cases hei : e = i
  · subst hei
    rw [markWith_instr_self hcut]
    simp only [hk, Kind.cutsDest, if_true, (hjump hk).symm]
  · rw [markWith_instr_of_ne hei]
    exact (EndsAt.stop_end he hlt hk).resolve_left hei

theorem Solid.markWith (he : h.Solid e) (hcut : h.CutsTo i d c) :
    (markWith h leads i d c).head.Solid e := by
  intro hlt hk
  rw [markWith_elements] at hlt
  rw [markWith_kind hcut] at hk
  by_cases hei : e = i
  · subst hei
    have hself : (h.instr e).dest = e := he hlt hk
    have hd : h.ChainEnd e (h.instr e).dest d := hcut.dest (by simp [hk, Kind.cutsDest])
    rw [hself] at hd
    rw [markWith_instr_self hcut]
    simp only [hk, Kind.cutsDest, if_true]
    exact EndsAt.eq_of_stop hd fun _ _ => .inl rfl
  · rw [markWith_instr_of_ne hei]
    exact he hlt hk

theorem getInstr_of_le (hd : h.elements ≤ d) : h.getInstr d = none :=
  if_neg (Nat.not_lt.mpr hd)

@[simp] theorem markWith_getInstr : (markWith h leads i d c).head.getInstr k =
    h.getInstr k := by
  simp only [getInstr, markWith_elements]

theorem Aimed.markWith_self (ha : h.Aimed i) (hm : (h.instr i).marked = false)
    (hcut : h.CutsTo i d c) : (markWith h leads i d c).head.Aimed i := by
  have hself : (markWith h leads i d c).head.instr i = _ := markWith_instr_self hcut
  constructor
  · intro _ hcuts
    simp only [hself] at hcuts ⊢
    rw [if_pos hcuts]
    exact solid_of_chainEnd hcut (hcut.dest hcuts) fun _ => rfl
  · intro _ hcuts
    simp only [hself] at hcuts ⊢
    rw [if_pos hcuts]
    refine solid_of_chainEnd hcut (hcut.cont hcuts) fun hk => ?_
    simp [hk, Kind.cutsCont] at hcuts
  · intro _ hcuts
    simp only [hself, markWith_getInstr] at hcuts ⊢
    rw [hcuts, if_pos rfl, Bool.true_and]
    split
    next => rfl
    next hout =>
      simp only [Bool.or_eq_true, decide_eq_true_eq, not_or, Bool.not_eq_true] at hout
      have hle := Nat.not_lt.mp hout.2
      rw [ha.no_optdest (.inr ⟨hm, hout.1⟩), (hcut.dest hcuts).eq_of_le hle, getInstr_of_le hle]
  · intro _ hcuts
    simp only [hself, markWith_getInstr] at hcuts ⊢
    rw [hcuts, if_pos rfl]
    split
    next => rfl
    next hout =>
      have hle := Nat.not_lt.mp (mt decide_eq_true hout)
      rw [ha.no_contOptdest hm, (hcut.cont hcuts).eq_of_le hle, getInstr_of_le hle]
  · intro hk
    simp only [hself] at hk ⊢
    rcases hk with hk | ⟨hk, hjump⟩
    · rw [hk]
      exact ha.no_optdest (.inl hk)
    · simp [hjump] at hk
  · intro hk
    simp only [hself, Bool.or_eq_false_iff, Bool.not_eq_false'] at hk ⊢
    have hjump : (h.instr i).kind.cutsCont = false := by
      cases hkind : (h.instr i).kind <;> simp [hkind, Kind.isJump, Kind.cutsCont] at hk ⊢
    rw [hjump]
    exact ha.no_contOptdest hm

theorem Aimed.markWith_of_ne (ha : h.Aimed k) (hki : k ≠ i) (hcut : h.CutsTo i d c) :
    (markWith h leads i d c).head.Aimed k := by
  constructor <;> rw [markWith_instr_of_ne hki]
  · exact fun hk hcuts => (ha.dest hk hcuts).markWith hcut
  · exact fun hk hcuts => (ha.cont hk hcuts).markWith hcut
  · exact fun hk hcuts => by rw [markWith_getInstr, ha.optdest hk hcuts]
  · exact fun hk hcuts => by rw [markWith_getInstr, ha.contOptdest hk hcuts]
  · exact ha.no_optdest
  · exact ha.no_contOptdest

/-! ### What a marked instruction goes on to -/

/-- The instructions that the one at `k` may go on to, and those in the scope of the CONTINUE
handler that it declares. -/
def succs (h : Head α) (k : ℕ) : List ℕ :=
  match (h.instr k).kind with
  | .stmt _ | .hpop _ => [k + 1]
  | .freturn _ | .error _ => []
  | .hreturn => if (h.instr k).dest = 0 then [] else [(h.instr k).dest]
  | .jump => [(h.instr k).dest]
  | .jumpIfNot _ => [k + 1, (h.instr k).dest, (h.instr k).contDest]
  | .setCaseExpr _ => [k + 1, (h.instr k).contDest]
  | .hpushJump _ type _ optHpop =>
    let dest := (h.instr k).dest
    (k + 1) :: dest :: if type = .cont then List.range' (dest + 1) (optHpop - dest) else []

theorem mem_addMarkLead {l : ℕ} : l ∈ h.addMarkLead leads t ↔
    l ∈ leads ∨ l = t ∧ t < h.elements ∧ (h.instr t).marked = false := by
  unfold addMarkLead
  split
  next ht => simp [ht, or_comm]
  next ht => simp only [ht, and_false, or_false]

theorem mem_foldl_addMarkLead {l : ℕ} {ts : List ℕ} : l ∈ ts.foldl h.addMarkLead leads ↔
    l ∈ leads ∨ l ∈ ts ∧ l < h.elements ∧ (h.instr l).marked = false := by
  induction ts generalizing leads with
  | nil => simp
  | cons t ts ih =>
    rw [foldl_cons, ih, mem_addMarkLead]
    constructor
    · rintro ((hl | ⟨rfl, ht⟩) | ⟨hl, ht⟩)
      · exact .inl hl
      · exact .inr ⟨.head _, ht⟩
      · exact .inr ⟨.tail _ hl, ht⟩
    · rintro (hl | ⟨hl, ht⟩)
      · exact .inl (.inl hl)
      · rcases mem_cons.mp hl with rfl | hl
        · exact .inl (.inr ⟨rfl, ht⟩)
        · exact .inr ⟨hl, ht⟩

end Head

namespace Marking

open Head

theorem subset_markWith_leads {l : ℕ} (hl : l ∈ leads) : l ∈ (markWith h leads i d c).leads := by
  unfold markWith
  cases (h.instr i).kind with
  | stmt a | hpop a | freturn a | error a | hreturn | jump => exact hl
  | jumpIfNot a => exact mem_addMarkLead.mpr (.inl (mem_addMarkLead.mpr (.inl hl)))
  | setCaseExpr a => exact mem_addMarkLead.mpr (.inl hl)
  | hpushJump a type conds optHpop =>
    exact mem_foldl_addMarkLead.mpr (.inl (mem_addMarkLead.mpr (.inl hl)))

theorem markWith_succs (hcut : h.CutsTo i d c) (ht : t ∈ (markWith h leads i d c).head.succs i) :
    h.elements ≤ t ∨ ((markWith h leads i d c).head.instr t).marked ∨
      t ∈ (markWith h leads i d c).leads ∨ (markWith h leads i d c).cur = some t := by
  have hlead : ∀ {h' : Head α} {ls : List ℕ}, h'.elements = h.elements →
      (t < h'.elements ∧ (h'.instr t).marked = false → t ∈ ls) →
      h.elements ≤ t ∨ (h'.instr t).marked ∨ t ∈ ls ∨ some (i + 1) = some t := by
    intro h' ls hn hls
    by_cases hlt : t < h'.elements
    · cases hm : (h'.instr t).marked with
      | true => exact .inr (.inl rfl)
      | false => exact .inr (.inr (.inl (hls ⟨hlt, hm⟩)))
    · exact .inl (hn ▸ Nat.not_lt.mp hlt)
  rw [succs, markWith_instr_self hcut] at ht
  unfold markWith
  cases hk : (h.instr i).kind with
  | stmt a | hpop a =>
    simp only [hk, mem_singleton] at ht
    exact .inr (.inr (.inr (by rw [ht])))
  | freturn a | error a => simp [hk] at ht
  | hreturn =>
    simp only [hk, Kind.cutsDest, Bool.false_eq_true, if_false] at ht
    split at ht
    next => simp at ht
    next hd =>
      rw [mem_singleton] at ht
      exact .inr (.inr (.inr (by simp only [hd, if_false, ht])))
  | jump =>
    simp only [hk, Kind.cutsDest, if_true, mem_singleton] at ht
    exact .inr (.inr (.inr (by rw [ht])))
  | jumpIfNot a =>
    simp only [hk, Kind.cutsDest, Kind.cutsCont, if_true, mem_cons, not_mem_nil,
      or_false] at ht
    rcases ht with rfl | rfl | rfl
    · exact .inr (.inr (.inr rfl))
    · refine hlead (by simp) fun hnew => ?_
      exact mem_addMarkLead.mpr (.inl (mem_addMarkLead.mpr (.inr ⟨rfl, hnew⟩)))
    · exact hlead (by simp) fun hnew => mem_addMarkLead.mpr (.inr ⟨rfl, hnew⟩)
  | setCaseExpr a =>
    simp only [hk, Kind.cutsCont, if_true, mem_cons, not_mem_nil, or_false] at ht
    rcases ht with rfl | rfl
    · exact .inr (.inr (.inr rfl))
    · exact hlead (by simp) fun hnew => mem_addMarkLead.mpr (.inr ⟨rfl, hnew⟩)
  | hpushJump a type conds optHpop =>
    simp only [hk, Kind.cutsDest, if_true, mem_cons] at ht
    rcases ht with rfl | rfl | ht
    · exact .inr (.inr (.inr rfl))
    · refine hlead (by simp) fun hnew => ?_
      exact mem_foldl_addMarkLead.mpr (.inl (mem_addMarkLead.mpr (.inr ⟨rfl, hnew⟩)))
    · exact hlead (by simp) fun hnew => mem_foldl_addMarkLead.mpr (.inr ⟨ht, hnew⟩)

/-- `t` has been marked, or will be come to: it is a lead, or the instruction at hand, or a jump
to the next instruction, which will be come to. -/
inductive Covered (s : Marking α) : ℕ → Prop
  | out {t : ℕ} (ht : s.head.elements ≤ t) : Covered s t
  | marked {t : ℕ} (ht : (s.head.instr t).marked) : Covered s t
  | lead {t : ℕ} (ht : t ∈ s.leads) : Covered s t
  | cur {t : ℕ} (ht : s.cur = some t) : Covered s t
  | skip {t : ℕ} (hk : (s.head.instr t).kind = .jump) (hd : (s.head.instr t).dest = t + 1)
      (ht : Covered s (t + 1)) : Covered s t

theorem markWith_marked (hcut : h.CutsTo i d c) (ht : (h.instr t).marked) :
    ((markWith h leads i d c).head.instr t).marked := by
  by_cases hti : t = i
  · subst hti
    simp [markWith_instr_self hcut, ht]
  · rwa [markWith_instr_of_ne hti]

theorem covered_self (hcut : h.CutsTo i d c) : Covered (markWith h leads i d c) i := by
  cases hm : ((markWith h leads i d c).head.instr i).marked with
  | true => exact .marked hm
  | false =>
    rw [markWith_instr_self hcut] at hm
    simp only [Bool.or_eq_false_iff, Bool.not_eq_false', bne_eq_false_iff_eq] at hm
    obtain ⟨hjump, -, rfl⟩ := hm
    have hk : (h.instr i).kind = .jump := by
      cases hk : (h.instr i).kind <;> simp [hk, Kind.isJump] at hjump ⊢
    refine .skip ((markWith_kind hcut i).trans hk) ?_ (.cur (by simp [markWith, hk]))
    rw [markWith_instr_self hcut]
    simp [hk, Kind.cutsDest]

theorem Covered.markWith (ht : Covered s t) (hcur : s.cur = some i)
    (hcut : s.head.CutsTo i d c) : Covered (markWith s.head s.leads i d c) t := by
  induction ht with
  | out ht => exact .out (by rwa [markWith_elements])
  | marked ht => exact .marked (markWith_marked hcut ht)
  | lead ht => exact .lead (subset_markWith_leads ht)
  | cur ht =>
    rw [hcur] at ht
    cases ht
    exact covered_self hcut
  | @skip t hk hd _ ih =>
    by_cases hti : t = i
    · subst hti
      exact covered_self hcut
    · refine .skip ?_ ?_ ih
      · rwa [markWith_instr_of_ne hti]
      · rwa [markWith_instr_of_ne hti]

theorem out_or_marked (hv : s.visiting = none) (ht : s.cur = some t) :
    s.head.elements ≤ t ∨ (s.head.instr t).marked := by
  by_contra hnot
  rw [not_or, Nat.not_le, Bool.not_eq_true] at hnot
  exact absurd (visiting_eq_some.mpr ⟨ht, hnot⟩) (by simp [hv])

theorem Covered.nextLead {l : ℕ} {ls : List ℕ} (ht : Covered s t) (hv : s.visiting = none)
    (hl : s.leads = l :: ls) : Covered ⟨s.head, ls, some l⟩ t := by
  induction ht with
  | out ht => exact .out ht
  | marked ht => exact .marked ht
  | lead ht =>
    rw [hl] at ht
    rcases mem_cons.mp ht with rfl | ht
    · exact .cur rfl
    · exact .lead ht
  | cur ht => exact (out_or_marked hv ht).elim (fun h => .out h) fun h => .marked h
  | skip hk hd _ ih => exact .skip hk hd ih

/-- What holds on the way of the marking loops through `code`. -/
structure Sound (code : List (Op α)) (s : Marking α) : Prop where
  rewrites : Rewrites code s.head
  indexed : s.head.Indexed
  aimed : ∀ k, s.head.Aimed k
  entry : Covered s 0
  succs : ∀ k, (s.head.instr k).marked → ∀ t ∈ s.head.succs k, Covered s t

theorem Sound.start (code : List (Op α)) : Sound code (start code) where
  rewrites := .load code
  indexed := start_indexed code
  aimed := Aimed.load code
  entry := .lead (.head _)
  succs _ hk := nomatch hk

theorem Sound.markWith (hs : Sound code s) (hv : s.visiting = some i)
    (hcut : s.head.CutsTo i d c) : Sound code (markWith s.head s.leads i d c) := by
  obtain ⟨hcur, -, hm⟩ := visiting_eq_some.mp hv
  refine ⟨hs.rewrites.markWith hcut, markWith_indexed hs.indexed hcut, fun k => ?_,
    hs.entry.markWith hcur hcut, fun k hk t ht => ?_⟩
  · by_cases hki : k = i
    · subst hki
      exact (hs.aimed k).markWith_self hm hcut
    · exact (hs.aimed k).markWith_of_ne hki hcut
  · by_cases hki : k = i
    · subst hki
      rcases markWith_succs hcut ht with hout | hmark | hlead | hnext
      · exact .out (by rwa [markWith_elements])
      · exact .marked hmark
      · exact .lead hlead
      · exact .cur hnext
    · rw [markWith_instr_of_ne hki] at hk
      rw [Head.succs, markWith_instr_of_ne hki] at ht
      exact (hs.succs k hk t ht).markWith hcur hcut

theorem Sound.step (hs : Sound code s) (hstep : Step s s') : Sound code s' := by
  rcases hstep.cases hs.indexed with ⟨i, d, c, hv, hcut, rfl⟩ | ⟨l, ls, hv, hl, rfl⟩
  · exact hs.markWith hv hcut
  · exact ⟨hs.rewrites, hs.indexed, hs.aimed, hs.entry.nextLead hv hl,
      fun k hk t ht => (hs.succs k hk t ht).nextLead hv hl⟩

theorem Sound.loop (hs : Sound code s) (hloop : s.loop fuel = some h) :
    ∃ s', Sound code s' ∧ s'.finished ∧ s'.head = h := by
  induction fuel generalizing s with
  | zero => exact nomatch hloop
  | succ fuel ih =>
    rw [loop] at hloop
    cases hfin : s.finished with
    | true =>
      rw [if_pos hfin] at hloop
      exact ⟨s, hs, hfin, Option.some.inj hloop⟩
    | false =>
      simp only [hfin, Bool.false_eq_true, if_false, Option.bind_eq_some_iff] at hloop
      obtain ⟨s₁, hadv, hrest⟩ := hloop
      exact ih (hs.step ⟨hfin, fuel, hadv⟩) hrest

end Marking

/-! ### The marked program -/

namespace Head

/-- `t` is an instruction that is kept, or behind the last instruction, or a jump to the next
instruction, which is dropped while what follows is kept. -/
inductive Kept (h : Head α) : ℕ → Prop
  | out {t : ℕ} (ht : h.elements ≤ t) : Kept h t
  | marked {t : ℕ} (ht : (h.instr t).marked) : Kept h t
  | skip {t : ℕ} (hk : (h.instr t).kind = .jump) (hd : (h.instr t).dest = t + 1)
      (ht : Kept h (t + 1)) : Kept h t

structure Marked (code : List (Op α)) (h : Head α) : Prop where
  rewrites : Rewrites code h
  indexed : h.Indexed
  aimed : ∀ k, h.Aimed k
  entry : Kept h 0
  succs : ∀ k, (h.instr k).marked → ∀ t ∈ h.succs k, Kept h t

theorem kept_of_covered (hfin : s.finished) (ht : Marking.Covered s t) : Kept s.head t := by
  simp only [finished, Bool.and_eq_true, Option.isNone_iff_eq_none,
    List.isEmpty_iff] at hfin
  induction ht with
  | out ht => exact .out ht
  | marked ht => exact .marked ht
  | lead ht =>
    rw [hfin.2] at ht
    exact absurd ht List.not_mem_nil
  | cur ht => exact (out_or_marked hfin.1 ht).elim (fun h => .out h) fun h => .marked h
  | skip hk hd _ ih => exact .skip hk hd ih

theorem marked_of_optMark (hmark : optMark fuel code = some h) : Marked code h := by
  obtain ⟨s, hs, hfin, rfl⟩ := (Marking.Sound.start code).loop hmark
  exact ⟨hs.rewrites, hs.indexed, hs.aimed, kept_of_covered hfin hs.entry,
    fun k hk t ht => kept_of_covered hfin (hs.succs k hk t ht)⟩

theorem Kept.marked_of_solid (ht : Kept h t) (hsolid : h.Solid t) (hlt : t < h.elements) :
    (h.instr t).marked := by
  cases ht with
  | out ht => exact absurd hlt (Nat.not_lt.mpr ht)
  | marked ht => exact ht
  | skip hk hd _ =>
    have := hsolid hlt hk
    omega

end Head

end MySQL.Sql.Sp
