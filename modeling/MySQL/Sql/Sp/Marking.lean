import MySQL.Sql.Sp.Shortcut

/-!
# What marking does

Marking calls `opt_mark` of one instruction after the other. Every call marks its instruction, or
finds an unconditional jump to the next instruction and goes on there.
-/

namespace MySQL.Sql.Sp

open Lib

variable {α : Type*} {h : Head α} {s s' : Marking α} {leads : List ℕ} {i k d c fuel : ℕ}

/-- The classes whose `opt_mark` moves `m_dest` to the end of its chain. -/
def Kind.cutsDest : Kind α → Bool
  | .jump | .jumpIfNot _ | .hpushJump .. => true
  | _ => false

/-- The classes whose `opt_mark` moves `m_cont_dest` to the end of its chain. -/
def Kind.cutsCont : Kind α → Bool
  | .jumpIfNot _ | .setCaseExpr _ => true
  | _ => false

def Kind.isJump : Kind α → Bool
  | .jump => true
  | _ => false

namespace Head

/-- `opt_mark` of the instruction `i` finds `d` at the end of the chain of its destination and `c`
at the end of the chain of its continuation. -/
structure CutsTo (h : Head α) (i d c : ℕ) : Prop where
  dest : (h.instr i).kind.cutsDest → h.ChainEnd i (h.instr i).dest d
  cont : (h.instr i).kind.cutsCont → h.ChainEnd i (h.instr i).contDest c

def cutDest (h : Head α) (i d : ℕ) : Head α :=
  if (h.instr i).dest < h.elements then
    h.modify i fun x => { x with dest := d, optdest := h.getInstr d }
  else h

def cutCont (h : Head α) (i c : ℕ) : Head α :=
  if (h.instr i).contDest < h.elements then
    h.modify i fun x => { x with contDest := c, contOptdest := h.getInstr c }
  else h

@[simp] theorem modify_elements (f : Node α → Node α) : (h.modify i f).elements = h.elements := rfl

@[simp] theorem modify_instr_self (f : Node α → Node α) :
    (h.modify i f).instr i = f (h.instr i) := by
  simp [modify]

theorem modify_instr_of_ne (f : Node α → Node α) (hk : k ≠ i) :
    (h.modify i f).instr k = h.instr k := by
  simp [modify, hk]

@[simp] theorem mark_elements : (h.mark i).elements = h.elements := rfl

@[simp] theorem mark_instr_self :
    (h.mark i).instr i = { h.instr i with marked := true } := modify_instr_self _

theorem mark_instr_of_ne (hk : k ≠ i) : (h.mark i).instr k = h.instr k := modify_instr_of_ne _ hk

@[simp] theorem cutDest_elements : (h.cutDest i d).elements = h.elements := by
  unfold cutDest
  split <;> rfl

@[simp] theorem cutCont_elements : (h.cutCont i c).elements = h.elements := by
  unfold cutCont
  split <;> rfl

theorem ite_modify_instr_of_ne {p : Prop} [Decidable p] (f : Node α → Node α) (hk : k ≠ i) :
    (if p then h.modify i f else h).instr k = h.instr k := by
  split
  · exact modify_instr_of_ne f hk
  · rfl

theorem cutDest_instr_of_ne (hk : k ≠ i) : (h.cutDest i d).instr k = h.instr k :=
  ite_modify_instr_of_ne _ hk

theorem cutCont_instr_of_ne (hk : k ≠ i) : (h.cutCont i c).instr k = h.instr k :=
  ite_modify_instr_of_ne _ hk

theorem ChainEnd.eq_of_le (hd : h.ChainEnd i d c) (hle : h.elements ≤ d) : c = d :=
  EndsAt.eq_of_stop hd fun hlt => absurd hlt (Nat.not_lt.mpr hle)

theorem cutDest_instr_self (hd : h.ChainEnd k (h.instr i).dest d) :
    (h.cutDest i d).instr i =
      { h.instr i with
        dest := d
        optdest := if (h.instr i).dest < h.elements then h.getInstr d
          else (h.instr i).optdest } := by
  unfold cutDest
  split
  next => simp
  next hge => rw [hd.eq_of_le (Nat.not_lt.mp hge)]

theorem cutCont_instr_self (hc : h.ChainEnd k (h.instr i).contDest c) :
    (h.cutCont i c).instr i =
      { h.instr i with
        contDest := c
        contOptdest := if (h.instr i).contDest < h.elements then h.getInstr c
          else (h.instr i).contOptdest } := by
  unfold cutCont
  split
  next => simp
  next hge => rw [hc.eq_of_le (Nat.not_lt.mp hge)]

/-! ### Chains and changes to an instruction that no chain goes through -/

/-- Two states of the program in which unconditional jumps look the same. -/
structure SameJumps (h h' : Head α) : Prop where
  elements : h'.elements = h.elements
  kind : ∀ k, (h'.instr k).kind = (h.instr k).kind
  dest : ∀ k, (h.instr k).kind = .jump → (h'.instr k).dest = (h.instr k).dest

theorem SameJumps.chainEnd_iff {h' : Head α} (hs : SameJumps h h') :
    h'.ChainEnd i d c ↔ h.ChainEnd i d c := by
  have hstop : ∀ z, h'.ShortcutStop i z ↔ h.ShortcutStop i z := by
    intro z
    simp only [ShortcutStop, hs.elements, hs.kind]
    constructor
    · intro hz hlt hk
      rw [← hs.dest z hk]
      exact hz hlt hk
    · intro hz hlt hk
      rw [hs.dest z hk]
      exact hz hlt hk
  have hjump : ∀ z, ¬h.ShortcutStop i z → (h'.instr z).dest = (h.instr z).dest := by
    intro z hz
    simp only [ShortcutStop, not_forall] at hz
    obtain ⟨-, hk, -⟩ := hz
    exact hs.dest z hk
  constructor
  · intro hd
    refine EndsAt.congr hd (fun z => (hstop z).symm) fun z hz => ?_
    exact (hjump z fun hz' => hz ((hstop z).mpr hz')).symm
  · intro hd
    exact EndsAt.congr hd hstop hjump

theorem sameJumps_modify {f : Node α → Node α} (hi : (h.instr i).kind ≠ .jump)
    (hf : (f (h.instr i)).kind = (h.instr i).kind) : SameJumps h (h.modify i f) := by
  refine ⟨rfl, fun k => ?_, fun k hk => ?_⟩
  · by_cases hki : k = i
    · rw [hki, modify_instr_self, hf]
    · rw [modify_instr_of_ne _ hki]
  · have hki : k ≠ i := fun hki => hi (hki ▸ hk)
    rw [modify_instr_of_ne _ hki]

section

variable (hi : (h.instr i).kind ≠ .jump)
include hi

theorem mark_ne_jump : ((h.mark i).instr i).kind ≠ .jump := by
  rwa [mark_instr_self]

theorem sameJumps_mark : SameJumps h (h.mark i) := sameJumps_modify hi rfl

theorem sameJumps_cutDest : SameJumps h (h.cutDest i d) := by
  unfold cutDest
  split
  · exact sameJumps_modify hi rfl
  · exact ⟨rfl, fun _ => rfl, fun _ _ => rfl⟩

omit hi in
theorem cutDest_contDest : ((h.cutDest i d).instr i).contDest = (h.instr i).contDest := by
  unfold cutDest
  split
  · rw [modify_instr_self]
  · rfl

theorem CutsTo.afterMark (hcut : h.CutsTo i d c) : (h.mark i).CutsTo i d c := by
  refine ⟨fun hd => ?_, fun hc => ?_⟩
  · rw [mark_instr_self] at hd ⊢
    exact (sameJumps_mark hi).chainEnd_iff.mpr (hcut.dest hd)
  · rw [mark_instr_self] at hc ⊢
    exact (sameJumps_mark hi).chainEnd_iff.mpr (hcut.cont hc)

theorem CutsTo.afterDest (hcut : h.CutsTo i d c) (hc : (h.instr i).kind.cutsCont) :
    (h.cutDest i d).ChainEnd i ((h.cutDest i d).instr i).contDest c := by
  rw [cutDest_contDest]
  exact (sameJumps_cutDest hi).chainEnd_iff.mpr (hcut.cont hc)

end

theorem Indexed.modify {f : Node α → Node α} (hidx : h.Indexed)
    (hf : (f (h.instr i)).ip = (h.instr i).ip) : (h.modify i f).Indexed := by
  intro k
  by_cases hki : k = i
  · subst hki
    rw [modify_instr_self, hf, hidx]
  · rw [modify_instr_of_ne _ hki, hidx]

theorem Indexed.mark (hidx : h.Indexed) : (h.mark i).Indexed := hidx.modify rfl

theorem Indexed.cutDest (hidx : h.Indexed) : (h.cutDest i d).Indexed := by
  unfold Head.cutDest
  split
  · exact hidx.modify rfl
  · exact hidx

/-! ### The two calls of the conditional classes -/

/-- The end of the chain at `x`, if there is an instruction. -/
def findEnd (h : Head α) (fuel i x : ℕ) : Option ℕ :=
  if x < h.elements then h.optShortcutJump i fuel x else some x

theorem shortcutDest_eq :
    h.shortcutDest fuel i = (h.findEnd fuel i (h.instr i).dest).map (h.cutDest i) := by
  unfold shortcutDest findEnd cutDest
  split <;> rfl

theorem shortcutCont_eq :
    h.shortcutCont fuel i = (h.findEnd fuel i (h.instr i).contDest).map (h.cutCont i) := by
  unfold shortcutCont findEnd cutCont
  split <;> rfl

section

variable {x : ℕ} (hidx : h.Indexed) (hi : (h.instr i).kind ≠ .jump)
include hidx hi

theorem chainEnd_of_findEnd (he : h.findEnd fuel i x = some d) : h.ChainEnd i x d := by
  unfold findEnd at he
  split at he
  next hlt => exact chainEnd_of_optShortcutJump hidx hlt hi he
  next hge =>
    cases he
    exact .here fun hlt => absurd hlt hge

end

end Head

namespace Marking

open Head

/-- `opt_mark` of the instruction `i`, with the ends of its chains given. -/
def markWith (h : Head α) (leads : List ℕ) (i d c : ℕ) : Marking α :=
  match (h.instr i).kind with
  | .stmt _ | .hpop _ => ⟨h.mark i, leads, some (i + 1)⟩
  | .freturn _ | .error _ => ⟨h.mark i, leads, none⟩
  | .hreturn => ⟨h.mark i, leads, if (h.instr i).dest = 0 then none else some (h.instr i).dest⟩
  | .jump =>
    ⟨h.modify i fun x =>
        { x with dest := d, marked := x.marked || d != i + 1, optdest := h.getInstr d },
      leads, some d⟩
  | .jumpIfNot _ =>
    let h' := ((h.mark i).cutDest i d).cutCont i c
    ⟨h', h'.addMarkLead (h'.addMarkLead leads d) c, some (i + 1)⟩
  | .setCaseExpr _ =>
    let h' := (h.mark i).cutCont i c
    ⟨h', h'.addMarkLead leads c, some (i + 1)⟩
  | .hpushJump _ type _ optHpop =>
    let h' := (h.mark i).cutDest i d
    let scope := if type = .cont then List.range' (d + 1) (optHpop - d) else []
    ⟨h', scope.foldl h'.addMarkLead (h'.addMarkLead leads d), some (i + 1)⟩

theorem cutCont_addMarkLead (l : ℕ) :
    (h.cutCont i c).addMarkLead leads l = h.addMarkLead leads l := by
  have hmarked : ((h.cutCont i c).instr l).marked = (h.instr l).marked := by
    unfold cutCont
    split
    · by_cases hl : l = i
      · subst hl
        rw [modify_instr_self]
      · rw [modify_instr_of_ne _ hl]
    · rfl
  simp only [addMarkLead, cutCont_elements, hmarked]

theorem optMark_spec (hidx : h.Indexed) (hs : optMark h leads fuel i = some s) :
    ∃ d c, h.CutsTo i d c ∧ s = markWith h leads i d c := by
  unfold optMark at hs
  unfold markWith
  cases hk : (h.instr i).kind with
  | stmt a | hpop a | freturn a | error a | hreturn =>
    simp only [hk, Option.some.injEq] at hs
    refine ⟨0, 0, ⟨fun hd => ?_, fun hc => ?_⟩, hs.symm⟩
    · exact absurd hd (by simp [hk, Kind.cutsDest])
    · exact absurd hc (by simp [hk, Kind.cutsCont])
  | jump =>
    simp only [hk, Option.map_eq_some_iff] at hs
    obtain ⟨d, hd, rfl⟩ := hs
    refine ⟨d, 0, ⟨fun _ => (shortcut_sound hidx fuel).1 i d hk hd, fun hc => ?_⟩, rfl⟩
    exact absurd hc (by simp [hk, Kind.cutsCont])
  | jumpIfNot a =>
    simp only [hk, shortcutDest_eq, shortcutCont_eq, Option.bind_eq_some_iff,
      Option.map_eq_some_iff] at hs
    obtain ⟨-, ⟨d, hd, rfl⟩, -, ⟨c, hc, rfl⟩, rfl⟩ := hs
    have hi : (h.instr i).kind ≠ .jump := by simp [hk]
    have hi₁ := mark_ne_jump hi
    replace hd := chainEnd_of_findEnd hidx.mark hi₁ hd
    have hself := cutDest_instr_self hd
    replace hc := chainEnd_of_findEnd hidx.mark.cutDest (by rwa [hself]) hc
    refine ⟨d, c, ⟨fun _ => ?_, fun _ => ?_⟩, ?_⟩
    · simpa using (sameJumps_mark hi).chainEnd_iff.mp hd
    · rw [cutDest_contDest, mark_instr_self] at hc
      exact (sameJumps_mark hi).chainEnd_iff.mp ((sameJumps_cutDest hi₁).chainEnd_iff.mp hc)
    · simp only [hself, cutCont_instr_self hc, cutCont_addMarkLead]
  | setCaseExpr a =>
    simp only [hk, shortcutCont_eq, Option.map_eq_some_iff] at hs
    obtain ⟨-, ⟨c, hc, rfl⟩, rfl⟩ := hs
    have hi : (h.instr i).kind ≠ .jump := by simp [hk]
    replace hc := chainEnd_of_findEnd hidx.mark (mark_ne_jump hi) hc
    refine ⟨0, c, ⟨fun hd => ?_, fun _ => ?_⟩, ?_⟩
    · exact absurd hd (by simp [hk, Kind.cutsDest])
    · simpa using (sameJumps_mark hi).chainEnd_iff.mp hc
    · simp only [cutCont_instr_self hc]
  | hpushJump a type conds optHpop =>
    simp only [hk, shortcutDest_eq, Option.map_eq_some_iff] at hs
    obtain ⟨-, ⟨d, hd, rfl⟩, rfl⟩ := hs
    have hi : (h.instr i).kind ≠ .jump := by simp [hk]
    replace hd := chainEnd_of_findEnd hidx.mark (mark_ne_jump hi) hd
    refine ⟨d, 0, ⟨fun _ => ?_, fun hc => ?_⟩, ?_⟩
    · simpa using (sameJumps_mark hi).chainEnd_iff.mp hd
    · exact absurd hc (by simp [hk, Kind.cutsCont])
    · simp only [cutDest_instr_self hd]

/-! ### The instruction after the call -/

@[simp] theorem markWith_elements : (markWith h leads i d c).head.elements = h.elements := by
  unfold markWith
  split <;> simp

theorem markWith_instr_of_ne (hk : k ≠ i) : (markWith h leads i d c).head.instr k = h.instr k := by
  unfold markWith
  split <;> simp only [mark_instr_of_ne hk, modify_instr_of_ne _ hk, cutCont_instr_of_ne hk,
    cutDest_instr_of_ne hk]

theorem markWith_instr_self (hcut : h.CutsTo i d c) :
    (markWith h leads i d c).head.instr i =
      { kind := (h.instr i).kind
        ip := (h.instr i).ip
        dest := if (h.instr i).kind.cutsDest then d else (h.instr i).dest
        contDest := if (h.instr i).kind.cutsCont then c else (h.instr i).contDest
        marked := !(h.instr i).kind.isJump || ((h.instr i).marked || d != i + 1)
        optdest :=
          if (h.instr i).kind.cutsDest && ((h.instr i).kind.isJump || (h.instr i).dest < h.elements)
          then h.getInstr d else (h.instr i).optdest
        contOptdest :=
          if (h.instr i).kind.cutsCont && (h.instr i).contDest < h.elements
          then h.getInstr c else (h.instr i).contOptdest } := by
  unfold markWith
  cases hk : (h.instr i).kind with
  | stmt a | hpop a | freturn a | error a | hreturn =>
    simp only [mark_instr_self, Kind.cutsDest, Kind.cutsCont, Kind.isJump, ← hk]
    rfl
  | jump => simp [hk, Kind.cutsDest, Kind.cutsCont, Kind.isJump]
  | jumpIfNot a =>
    have hi : (h.instr i).kind ≠ .jump := by simp [hk]
    have hmark := hcut.afterMark hi
    have hd := hmark.dest (by simp [hk, Kind.cutsDest])
    have hc := hmark.afterDest (mark_ne_jump hi) (by simp [hk, Kind.cutsCont])
    rw [cutCont_instr_self hc, cutDest_instr_self hd]
    simp [hk, Kind.cutsDest, Kind.cutsCont, Kind.isJump, getInstr]
    rfl
  | setCaseExpr a =>
    have hi : (h.instr i).kind ≠ .jump := by simp [hk]
    have hc := (hcut.afterMark hi).cont (by simp [hk, Kind.cutsCont])
    rw [cutCont_instr_self hc]
    simp [hk, Kind.cutsDest, Kind.cutsCont, Kind.isJump, getInstr]
    rfl
  | hpushJump a type conds optHpop =>
    have hi : (h.instr i).kind ≠ .jump := by simp [hk]
    have hd := (hcut.afterMark hi).dest (by simp [hk, Kind.cutsDest])
    rw [cutDest_instr_self hd]
    simp [hk, Kind.cutsDest, Kind.cutsCont, Kind.isJump, getInstr]
    rfl

theorem markWith_kind (hcut : h.CutsTo i d c) (k : ℕ) :
    ((markWith h leads i d c).head.instr k).kind = (h.instr k).kind := by
  by_cases hk : k = i
  · rw [hk, markWith_instr_self hcut]
  · rw [markWith_instr_of_ne hk]

theorem markWith_indexed (hidx : h.Indexed) (hcut : h.CutsTo i d c) :
    (markWith h leads i d c).head.Indexed := by
  intro k
  by_cases hk : k = i
  · rw [hk, markWith_instr_self hcut]
    exact hidx i
  · rw [markWith_instr_of_ne hk]
    exact hidx k

/-! ### One turn of the loops -/

/-- One turn of the loops of `sp_head::opt_mark` that comes to its end. -/
def Step (s s' : Marking α) : Prop :=
  s.finished = false ∧ ∃ fuel, s.advance fuel = some s'

theorem visiting_eq_some : s.visiting = some i ↔
    s.cur = some i ∧ i < s.head.elements ∧ (s.head.instr i).marked = false := by
  simp only [visiting, Option.filter_eq_some_iff, Bool.and_eq_true, decide_eq_true_eq,
    Bool.not_eq_true']

theorem Step.cases (hstep : Step s s') (hidx : s.head.Indexed) :
    (∃ i d c, s.visiting = some i ∧ s.head.CutsTo i d c ∧
      s' = markWith s.head s.leads i d c) ∨
    ∃ l ls, s.visiting = none ∧ s.leads = l :: ls ∧ s' = ⟨s.head, ls, some l⟩ := by
  obtain ⟨hfin, fuel, hadv⟩ := hstep
  unfold advance at hadv
  cases hv : s.visiting with
  | some i =>
    rw [hv] at hadv
    obtain ⟨d, c, hcut, rfl⟩ := optMark_spec hidx hadv
    exact .inl ⟨i, d, c, rfl, hcut, rfl⟩
  | none =>
    rw [hv] at hadv
    cases hl : s.leads with
    | nil => simp [finished, hv, hl] at hfin
    | cons l ls =>
      simp only [hl, List.tail_cons, List.head?_cons, Option.some.injEq] at hadv
      exact .inr ⟨l, ls, rfl, rfl, hadv.symm⟩

theorem start_indexed (code : List (Op α)) : (start code).head.Indexed := fun _ => rfl

end Marking

end MySQL.Sql.Sp
