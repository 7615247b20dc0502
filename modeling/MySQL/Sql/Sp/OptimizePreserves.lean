import MySQL.Sql.Sp.Compaction

/-!
# The optimized program runs as the original one

A run of the program and a run of the optimized one go side by side: the instruction pointer, the
handlers and the continuations of the one are the new indices of those of the other, up to
unconditional jumps.
-/

namespace MySQL.Sql.Sp

open Lib List

variable {α : Type*} {code : List (Op α)} {h : Head α} {m m' : Machine} {a a' k t t' fuel : ℕ}
  {os : List Outcome} {o : Outcome}

/-! ### Addresses -/

/-- The address `a` is kept, and `a'` is the same address in the new array. -/
structure Address (h : Head α) (a a' : ℕ) : Prop where
  kept : h.Kept a
  inside : a < h.elements → a' = h.newIp a
  outside : h.elements ≤ a → h.newIp h.elements ≤ a'

/-- Unconditional jumps lead from `a` to an address that is kept, and `a'` is that address in the
new array. -/
def Target (code : List (Op α)) (h : Head α) (a a' : ℕ) : Prop :=
  ∃ e, Leads code a e ∧ Address h e a'

/-- Where a run stops: outside, or at a marked instruction that is not a jump. -/
structure Stop (h : Head α) (t t' : ℕ) : Prop where
  outside : h.elements ≤ t → h.newIp h.elements ≤ t'
  inside : t < h.elements →
    (h.instr t).marked ∧ (h.instr t).kind ≠ .jump ∧ t' = h.newIp t

namespace Head

theorem newIp_elements_le (h : Head α) : h.newIp h.elements ≤ h.elements := h.newIp_le _

theorem address_relocated (ha : h.Kept a) : Address h a (h.relocated h.elements a) := by
  refine ⟨ha, fun hlt => if_pos hlt, fun hle => ?_⟩
  rw [relocated, if_neg (Nat.not_lt.mpr hle)]
  exact (h.newIp_elements_le).trans hle

theorem address_succ (hk : (h.instr k).marked) (hlt : k < h.elements) (ha : h.Kept (k + 1)) :
    Address h (k + 1) (h.newIp k + 1) := by
  rw [← newIp_succ_of_marked hk]
  refine ⟨ha, fun _ => rfl, fun hle => ?_⟩
  rw [show k + 1 = h.elements by omega]

theorem Marked.leads_dest (hm : Marked code h) (ha : a < h.elements)
    (hk : (h.instr a).kind = .jump) : Leads code a (h.instr a).dest := by
  have hsilent : Silent code a :=
    silent_iff.mpr ⟨hm.rewrites.elements ▸ ha, hm.rewrites.kind a ▸ hk⟩
  exact .head ⟨not_not.mpr hsilent, rfl⟩ (hm.rewrites.dest a)

end Head

theorem Settles.of_outside (hle : code.length ≤ a) : Settles code a a :=
  .here fun hs => Nat.not_lt.mpr hle (silent_iff.mp hs).1

section Preserves

variable (hm : h.Marked code) (hr : h.Relocatable)

include hm hr

theorem silent_compacted (ha : a < h.elements) (hmark : (h.instr a).marked) :
    (Silent h.compacted (h.newIp a) ↔ (h.instr a).kind = .jump) ∧
      ((h.instr a).kind = .jump → (h.compacted.getD (h.newIp a) default).dest =
        h.relocated h.elements (h.instr a).dest) := by
  obtain ⟨op, hop, hren⟩ := h.compacted_getElem? hm hr hmark ha
  refine ⟨⟨?_, fun hk => ⟨op, hop, hren.kind.trans hk⟩⟩, fun hk => ?_⟩
  · rintro ⟨op', hop', hk⟩
    rw [hop] at hop'
    cases hop'
    rw [← hren.kind, hk]
  · rw [List.getD_eq_getElem?_getD, hop]
    exact hren.dest (by simp [hk, Kind.hasDest])

theorem settles_at (ha : a < h.elements) (hmark : (h.instr a).marked)
    (hk : (h.instr a).kind ≠ .jump) :
    Settles code a a ∧ Settles h.compacted (h.newIp a) (h.newIp a) ∧ Stop h a (h.newIp a) := by
  refine ⟨.here fun hs => hk ?_, .here fun hs => hk ?_, ?_, fun _ => ⟨hmark, hk, rfl⟩⟩
  · rw [hm.rewrites.kind]
    exact (silent_iff.mp hs).2
  · exact (silent_compacted hm hr ha hmark).1.mp hs
  · exact fun hle => absurd ha (Nat.not_lt.mpr hle)

theorem settles_outside (ha : h.elements ≤ a) (ha' : h.newIp h.elements ≤ a') :
    Settles code a a ∧ Settles h.compacted a' a' ∧ Stop h a a' := by
  refine ⟨.of_outside (hm.rewrites.elements ▸ ha), .of_outside ?_, fun _ => ha', fun hlt => ?_⟩
  · rwa [h.compacted_length hm hr]
  · exact absurd hlt (Nat.not_lt.mpr ha)

theorem endless_jump (ha : a < h.elements) (hmark : (h.instr a).marked)
    (hk : (h.instr a).kind = .jump) (hself : (h.instr a).dest = a) :
    (∀ t, ¬Settles code a t) ∧ ∀ t, ¬Settles h.compacted (h.newIp a) t := by
  obtain ⟨hsilent, hdest⟩ := silent_compacted hm hr ha hmark
  constructor
  · intro t ht
    have hsilent₀ : Silent code a :=
      silent_iff.mpr ⟨hm.rewrites.elements ▸ ha, hm.rewrites.kind a ▸ hk⟩
    have hcycle := hm.rewrites.dest a
    rw [hself] at hcycle
    exact EndsAt.no_cycle ht .refl (not_not.mpr hsilent₀) hcycle
  · intro t ht
    refine EndsAt.no_cycle ht .refl (not_not.mpr (hsilent.mpr hk)) ?_
    rw [hdest hk, hself, Head.relocated, if_pos ha]
    exact .refl

theorem settles_marked (ha : a < h.elements) (hmark : (h.instr a).marked) :
    (∃ t t', Settles code a t ∧ Settles h.compacted (h.newIp a) t' ∧ Stop h t t') ∨
      (∀ t, ¬Settles code a t) ∧ ∀ t', ¬Settles h.compacted (h.newIp a) t' := by
  by_cases hk : (h.instr a).kind = .jump
  · have hcuts : (h.instr a).kind.cutsDest := by simp [hk, Kind.cutsDest]
    obtain ⟨hsilent, hdest⟩ := silent_compacted hm hr ha hmark
    have hleads := hm.leads_dest ha hk
    have hleads' : Leads h.compacted (h.newIp a) (h.relocated h.elements (h.instr a).dest) := by
      rw [← hdest hk]
      exact .single ⟨not_not.mpr (hsilent.mpr hk), rfl⟩
    simp only [Settles, hleads.endsAt_iff, hleads'.endsAt_iff]
    rcases Nat.lt_or_ge (h.instr a).dest h.elements with hd | hd
    · have hdm := hm.dest_marked hmark hcuts hd
      rw [Head.relocated, if_pos hd]
      by_cases hdk : (h.instr (h.instr a).dest).kind = .jump
      · exact .inr (endless_jump hm hr hd hdm hdk ((hm.aimed a).dest hmark hcuts hd hdk))
      · exact .inl ⟨_, _, settles_at hm hr hd hdm hdk⟩
    · have hout := (Head.address_relocated (hm.dest_kept hmark hcuts)).outside hd
      exact .inl ⟨_, _, settles_outside hm hr hd hout⟩
  · exact .inl ⟨_, _, settles_at hm hr ha hmark hk⟩

theorem Address.settles (ha : Address h a a') :
    (∃ t t', Settles code a t ∧ Settles h.compacted a' t' ∧ Stop h t t') ∨
      (∀ t, ¬Settles code a t) ∧ ∀ t', ¬Settles h.compacted a' t' := by
  obtain ⟨hkept, hin, hout⟩ := ha
  induction hkept with
  | out ha => exact .inl ⟨_, _, settles_outside hm hr ha (hout ha)⟩
  | @marked a hmark =>
    rcases Nat.lt_or_ge a h.elements with ha | ha
    · rw [hin ha]
      exact settles_marked hm hr ha hmark
    · exact .inl ⟨_, _, settles_outside hm hr ha (hout ha)⟩
  | @skip a hk hd _ ih =>
    rcases Nat.lt_or_ge a h.elements with ha | ha
    · rw [hin ha]
      cases hmark : (h.instr a).marked with
      | true => exact settles_marked hm hr ha hmark
      | false =>
        -- the jump is dropped, and its new index is that of the next instruction
        have hleads := hm.leads_dest ha hk
        rw [hd] at hleads
        have hip := Head.newIp_succ_of_not_marked hmark
        simp only [Settles, hleads.endsAt_iff]
        rw [hin ha] at ih
        refine ih (fun _ => hip.symm) fun hle => ?_
        rw [show h.elements = a + 1 by omega, hip]
    · exact .inl ⟨_, _, settles_outside hm hr ha (hout ha)⟩

theorem Target.settles (ha : Target code h a a') :
    (∃ t t', Settles code a t ∧ Settles h.compacted a' t' ∧ Stop h t t') ∨
      (∀ t, ¬Settles code a t) ∧ ∀ t', ¬Settles h.compacted a' t' := by
  obtain ⟨e, hleads, he⟩ := ha
  have := he.settles hm hr
  simpa only [Settles, hleads.endsAt_iff] using this

end Preserves

/-! ### Running side by side -/

def SameHandler (h : Head α) (x x' : ℕ × HandlerType) : Prop :=
  x'.2 = x.2 ∧ ∃ p < h.elements, (h.instr p).marked ∧ x.1 = p + 1 ∧ x'.1 = h.newIp p + 1 ∧
    ∃ b conds optHpop, (h.instr p).kind = .hpushJump b x.2 conds optHpop

structure Alike (code : List (Op α)) (h : Head α) (m m' : Machine) : Prop where
  ip : Target code h m.ip m'.ip
  handlers : List.Forall₂ (SameHandler h) m.handlers m'.handlers
  hstack : List.Forall₂ (Target code h) m.hstack m'.hstack

inductive AlikeNext (code : List (Op α)) (h : Head α) : Next → Next → Prop
  | goto {m m' : Machine} (hm : Alike code h m m') : AlikeNext code h (.goto m) (.goto m')
  | returned : AlikeNext code h .returned .returned
  | failed : AlikeNext code h .failed .failed

/-- The instruction `k` is in the scope that marking gave to the CONTINUE handler whose first
instruction is `handler`. -/
def InScope (h : Head α) (handler k : ℕ) : Prop :=
  match (h.instr (handler - 1)).kind with
  | .hpushJump _ _ _ optHpop => (h.instr (handler - 1)).dest ≤ k ∧ k < optHpop
  | _ => False

def Kind.leaves : Kind α → Bool
  | .freturn _ | .error _ => true
  | _ => false

/-- A CONTINUE handler is activated by the instruction at `t` only inside its scope, if the
instruction is one that otherwise leaves the program. -/
def Scoped (h : Head α) (m : Machine) (t : ℕ) (o : Outcome) : Prop :=
  (h.instr t).kind.leaves → ∀ i handler, o = .caught i → m.handlers[i]? = some (handler, .cont) →
    InScope h handler t

theorem Address.target (ha : Address h a a') : Target code h a a' :=
  ⟨a, .refl, ha⟩

theorem SameHandler.address (hm : h.Marked code) {x x' : ℕ × HandlerType}
    (hx : SameHandler h x x') : Address h x.1 x'.1 := by
  obtain ⟨-, p, hlt, hmark, hx₁, hx₁', b, conds, optHpop, hk⟩ := hx
  rw [hx₁, hx₁']
  refine Head.address_succ hmark hlt (hm.succs p hmark _ ?_)
  simp [Head.succs, hk]

theorem sameHandler_of_getElem? {hs hs' : List (ℕ × HandlerType)} {i : ℕ} {x : ℕ × HandlerType}
    (hh : List.Forall₂ (SameHandler h) hs hs') (hx : hs[i]? = some x) :
    ∃ x', hs'[i]? = some x' ∧ SameHandler h x x' := by
  obtain ⟨hi, hxi⟩ := List.getElem?_eq_some_iff.mp hx
  have hi' : i < hs'.length := hh.length_eq ▸ hi
  have hsame := hh.get hi hi'
  simp only [get_eq_getElem, hxi] at hsame
  exact ⟨hs'[i], List.getElem?_eq_getElem hi', hsame⟩

theorem SameHandler.kept_of_inScope (hm : h.Marked code) {x x' : ℕ × HandlerType}
    (hx : SameHandler h x x') (hcont : x.2 = .cont) (hs : InScope h x.1 t) : h.Kept (t + 1) := by
  obtain ⟨-, p, hlt, hmark, hx₁, -, b, conds, optHpop, hk⟩ := hx
  refine hm.succs p hmark _ ?_
  rw [InScope, hx₁, Nat.add_sub_cancel, hk] at hs
  simp only [Head.succs, hk, hcont, if_true, mem_cons, List.mem_range'_1]
  omega

theorem react_alike (hm : h.Marked code) {c c' : ℕ} {done done' : Bool → Next}
    (hh : List.Forall₂ (SameHandler h) m.handlers m'.handlers)
    (hst : List.Forall₂ (Target code h) m.hstack m'.hstack)
    (hc : ∀ i handler, o = .caught i → m.handlers[i]? = some (handler, .cont) → Target code h c c')
    (hdone : ∀ b, AlikeNext code h (done b) (done' b)) :
    AlikeNext code h (m.react c o done) (m'.react c' o done') := by
  cases o with
  | ok b => exact hdone b
  | fail => exact .failed
  | caught i =>
    unfold Machine.react
    dsimp only
    cases hx : m.handlers[i]? with
    | none =>
      have hx' : m'.handlers[i]? = none := by
        rw [List.getElem?_eq_none_iff] at hx ⊢
        rwa [← hh.length_eq]
      rw [hx']
      exact .failed
    | some x =>
      obtain ⟨handler, type⟩ := x
      obtain ⟨⟨handler', type'⟩, hx', hsame⟩ := sameHandler_of_getElem? hh hx
      rw [hx']
      obtain rfl : type' = type := hsame.1
      refine .goto ⟨(hsame.address hm).target, hh, ?_⟩
      by_cases hcont : type' = .cont
      · simp only [hcont, if_true]
        exact .cons (hc i handler rfl (hcont ▸ hx)) hst
      · simp only [hcont, if_false]
        exact hst

theorem relocated_hreturn_eq_zero (hr : h.Relocatable) (hk : k < h.elements)
    (hmark : (h.instr k).marked) (hret : (h.instr k).kind = .hreturn) :
    h.relocated h.elements (h.instr k).dest = 0 ↔ (h.instr k).dest = 0 := by
  unfold Head.relocated
  constructor
  · intro hzero
    split at hzero
    next hlt =>
      rcases hr.hreturn k hk hmark hret with ⟨hfwd, -⟩ | hsame
      · have : h.newIp k < h.newIp (h.instr k).dest := Nat.count_strict_mono hmark hfwd
        omega
      · omega
    next => exact hzero
  · intro hzero
    rw [hzero, if_pos (by omega)]
    exact Nat.count_zero _

section Preserves

variable (hm : h.Marked code) (hr : h.Relocatable)

include hm hr

theorem execute_alike {op op' : Op α} (hmm : Alike code h m m') (ht : t < h.elements)
    (hmark : (h.instr t).marked) (hk : (h.instr t).kind ≠ .jump) (hop : code[t]? = some op)
    (hren : h.Renumbered t op') (hs : Scoped h m t o) :
    AlikeNext code h (op.execute { m with ip := t } o)
      (op'.execute { m' with ip := h.newIp t } o) := by
  have hget : code.getD t default = op := by rw [List.getD_eq_getElem?_getD, hop]; rfl
  have hkind : op.kind = (h.instr t).kind := by rw [hm.rewrites.kind, hget]
  have hgoto : ∀ {b b' : ℕ}, Target code h b b' →
      AlikeNext code h (.goto { m with ip := b }) (.goto { m' with ip := b' }) :=
    fun hb => .goto ⟨hb, hmm.handlers, hmm.hstack⟩
  have hsucc : t + 1 ∈ h.succs t → Target code h (t + 1) (h.newIp t + 1) := fun hmem =>
    (Head.address_succ hmark ht (hm.succs t hmark _ hmem)).target
  have hdest : (h.instr t).kind.hasDest → h.Kept (h.instr t).dest →
      Target code h op.dest op'.dest := by
    intro hhas hkept
    refine ⟨_, ?_, hren.dest hhas ▸ Head.address_relocated hkept⟩
    rw [← hget]
    exact hm.rewrites.dest t
  have hcont : (h.instr t).kind.cutsCont → Target code h op.contDest op'.contDest := by
    intro hcuts
    refine ⟨_, ?_, hren.cont hcuts ▸ Head.address_relocated (hm.cont_kept hmark hcuts)⟩
    rw [← hget]
    exact hm.rewrites.cont t
  -- an instruction that leaves the program goes on only if a CONTINUE handler takes over
  have hleave : (h.instr t).kind.leaves → ∀ i handler, o = .caught i →
      m.handlers[i]? = some (handler, .cont) → Target code h (t + 1) (h.newIp t + 1) := by
    intro hl i handler ho hx
    obtain ⟨x', -, hsame⟩ := sameHandler_of_getElem? hmm.handlers hx
    have hkept := hsame.kept_of_inScope hm rfl (hs hl i handler ho hx)
    exact (Head.address_succ hmark ht hkept).target
  unfold Op.execute
  rw [hkind, hren.kind]
  cases hkt : (h.instr t).kind with
  | jump => exact absurd hkt hk
  | stmt b =>
    have hnext := hsucc (by simp [Head.succs, hkt])
    exact react_alike hm hmm.handlers hmm.hstack (fun _ _ _ _ => hnext) fun _ => hgoto hnext
  | jumpIfNot b =>
    have hnext := hsucc (by simp [Head.succs, hkt])
    have hd := hdest (by simp [hkt, Kind.hasDest])
      (hm.dest_kept hmark (by simp [hkt, Kind.cutsDest]))
    have hc := hcont (by simp [hkt, Kind.cutsCont])
    refine react_alike hm hmm.handlers hmm.hstack (fun _ _ _ _ => hc) fun b => hgoto ?_
    cases b with
    | true => exact hnext
    | false => exact hd
  | setCaseExpr b =>
    have hnext := hsucc (by simp [Head.succs, hkt])
    have hc := hcont (by simp [hkt, Kind.cutsCont])
    exact react_alike hm hmm.handlers hmm.hstack (fun _ _ _ _ => hc) fun _ => hgoto hnext
  | freturn b =>
    exact react_alike hm hmm.handlers hmm.hstack (hleave (by simp [hkt, Kind.leaves]))
      fun _ => .returned
  | error b =>
    exact react_alike hm hmm.handlers hmm.hstack (hleave (by simp [hkt, Kind.leaves]))
      fun _ => .failed
  | hpushJump b type conds optHpop =>
    have hd := hdest (by simp [hkt, Kind.hasDest])
      (hm.dest_kept hmark (by simp [hkt, Kind.cutsDest]))
    refine .goto ⟨hd, rel_append ?_ hmm.handlers, hmm.hstack⟩
    have hnew : SameHandler h (t + 1, type) (h.newIp t + 1, type) :=
      ⟨rfl, t, ht, hmark, rfl, rfl, b, conds, optHpop, hkt⟩
    exact forall₂_iff_get.mpr ⟨by simp, fun i _ _ => by simpa using hnew⟩
  | hpop count =>
    have hnext := hsucc (by simp [Head.succs, hkt])
    exact .goto ⟨hnext, forall₂_drop count hmm.handlers, hmm.hstack⟩
  | hreturn =>
    have hzero : op'.dest = 0 ↔ op.dest = 0 := by
      rw [hren.dest (by simp [hkt, Kind.hasDest]), relocated_hreturn_eq_zero hr ht hmark hkt,
        hm.rewrites.dest_eq t (by simp [hkt, Kind.cutsDest]), hget]
    by_cases hd : op.dest = 0
    · simp only [hd, hzero.mpr hd, ne_eq, not_true_eq_false, if_false]
      have hst := hmm.hstack
      generalize m.hstack = st, m'.hstack = st' at hst ⊢
      cases hst with
      | nil => exact .failed
      | cons ha hrest => exact .goto ⟨ha, hmm.handlers, hrest⟩
    · have hd' : op'.dest ≠ 0 := fun h => hd (hzero.mp h)
      simp only [ne_eq, hd, hd', not_false_eq_true, if_true]
      have hdt : (h.instr t).dest ≠ 0 := by
        rwa [hm.rewrites.dest_eq t (by simp [hkt, Kind.cutsDest]), hget]
      exact hgoto (hdest (by simp [hkt, Kind.hasDest])
        (hm.succs t hmark _ (by simp [Head.succs, hkt, hdt])))

theorem Target.meets (ha : Target code h a a') :
    ((∀ t, ¬Settles code a t) ∧ ∀ t', ¬Settles h.compacted a' t') ∨
    (∃ t t', Settles code a t ∧ Settles h.compacted a' t' ∧ code[t]? = none ∧
      h.compacted[t']? = none) ∨
    ∃ t op op', Settles code a t ∧ Settles h.compacted a' (h.newIp t) ∧ code[t]? = some op ∧
      h.compacted[h.newIp t]? = some op' ∧ op'.kind = op.kind ∧ h.Renumbered t op' ∧
      t < h.elements ∧ (h.instr t).marked ∧ (h.instr t).kind ≠ .jump := by
  rcases ha.settles hm hr with ⟨t, t', ht, ht', hstop⟩ | hno
  · rcases Nat.lt_or_ge t h.elements with hlt | hge
    · obtain ⟨hmark, hk, rfl⟩ := hstop.inside hlt
      obtain ⟨op', hop', hren⟩ := h.compacted_getElem? hm hr hmark hlt
      have hlt' : t < code.length := hm.rewrites.elements ▸ hlt
      have hop := List.getElem?_eq_getElem hlt'
      refine .inr (.inr ⟨t, code[t], op', ht, ht', hop, hop', ?_, hren, hlt, hmark, hk⟩)
      rw [hren.kind, hm.rewrites.kind, List.getD_eq_getElem?_getD, hop, Option.getD_some]
    · refine .inr (.inl ⟨t, t', ht, ht', ?_, ?_⟩)
      · exact List.getElem?_eq_none (hm.rewrites.elements ▸ hge)
      · exact List.getElem?_eq_none (h.compacted_length hm hr ▸ hstop.outside hge)
  · exact .inl hno

end Preserves

/-- Handlers are activated in their scopes all along the run on `os`. -/
def ScopedRun (code : List (Op α)) (h : Head α) : Machine → List Outcome → Prop
  | _, [] => True
  | m, o :: os => ∀ t op, Settles code m.ip t → code[t]? = some op →
      Scoped h m t o ∧
        ∀ m', op.execute { m with ip := t } o = .goto m' → ScopedRun code h m' os

theorem runs_alike (hm : h.Marked code) (hr : h.Relocatable) {evs : List (Kind α × Outcome)}
    {e : Ending α} (hmm : Alike code h m m') (hs : ScopedRun code h m os) :
    Runs code m os evs e ↔ Runs h.compacted m' os evs e := by
  induction os generalizing m m' evs with
  | nil =>
    rcases hmm.ip.meets hm hr with ⟨hno, hno'⟩ | ⟨t, t', ht, ht', hop, hop'⟩ |
      ⟨t, op, op', ht, ht', hop, hop', hkind, -⟩
    · rw [runs_iff_of_diverged hno, runs_iff_of_diverged hno']
    · rw [runs_iff_of_finished ht hop, runs_iff_of_finished ht' hop']
    · rw [runs_nil_iff ht hop, runs_nil_iff ht' hop', hkind]
  | cons o os ih =>
    rcases hmm.ip.meets hm hr with ⟨hno, hno'⟩ | ⟨t, t', ht, ht', hop, hop'⟩ |
      ⟨t, op, op', ht, ht', hop, hop', hkind, hren, hlt, hmark, hk⟩
    · rw [runs_iff_of_diverged hno, runs_iff_of_diverged hno']
    · rw [runs_iff_of_finished ht hop, runs_iff_of_finished ht' hop']
    · rw [runs_cons_iff ht hop, runs_cons_iff ht' hop', hkind]
      obtain ⟨hscoped, hrest⟩ := hs t op ht hop
      have hnext := execute_alike hm hr hmm hlt hmark hk hop hren hscoped
      -- one instruction has been run, and the rest of the runs is alike
      suffices hfrom : ∀ evs', RunsFrom code os evs' e (op.execute { m with ip := t } o) ↔
          RunsFrom h.compacted os evs' e (op'.execute { m' with ip := h.newIp t } o) by
        simp only [hfrom]
      intro evs'
      generalize hn : op.execute { m with ip := t } o = next at hnext
      generalize op'.execute { m' with ip := h.newIp t } o = next' at hnext
      cases hnext with
      | goto hmm₁ => exact ih hmm₁ (hrest _ hn)
      | returned | failed => rfl

theorem ScopedRun.of_not_leaves (hm : h.Marked code)
    (hcode : ∀ op ∈ code, op.kind.leaves = false) : ScopedRun code h m os := by
  induction os generalizing m with
  | nil => trivial
  | cons o os ih =>
    intro t op _ hop
    refine ⟨fun hl => ?_, fun m' _ => ih⟩
    have hnot := hcode op (List.mem_of_getElem? hop)
    rw [hm.rewrites.kind, List.getD_eq_getElem?_getD, hop, Option.getD_some, hnot] at hl
    exact nomatch hl

def leaveThenWhile : List (Op ℕ) :=
  [⟨.jump, 2, 0⟩, ⟨.stmt 9, 0, 0⟩, ⟨.jumpIfNot 0, 5, 5⟩, ⟨.stmt 1, 0, 0⟩, ⟨.jump, 2, 0⟩]

def leaveThenWhileMarked : Head ℕ :=
  (optMark 20 leaveThenWhile).getD (load [])

/-- A block that is left at once, and a LOOP with nothing in it behind it. The jump of the loop to
itself is moved from 2 to 1 and keeps the destination 2, which is behind the end. -/
def leaveThenLoop : List (Op ℕ) :=
  [⟨.jump, 2, 0⟩, ⟨.stmt 9, 0, 0⟩, ⟨.jump, 2, 0⟩]

end MySQL.Sql.Sp
