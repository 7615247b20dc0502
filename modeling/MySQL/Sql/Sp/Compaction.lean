import MySQL.Sql.Sp.MarkedFlow

/-!
# Moving the marked instructions down

The loop of `sp_head::optimize` keeps, for the instructions it has passed, that a destination it
has passed too is the new index of that instruction. This needs that the destination was caught in
one of the two ways the loop has, back-patching and the instruction noted down as destination; the
cases that fall between them are excluded by `Relocatable`.
-/

namespace MySQL.Sql.Sp

open Lib List

variable {α : Type*} {code : List (Op α)} {h : Head α} {m : Moving α} {i j k d s src dst : ℕ}

/-- The classes with a destination `m_dest`. -/
def Kind.hasDest : Kind α → Bool
  | .jump | .jumpIfNot _ | .hpushJump .. | .hreturn => true
  | _ => false

theorem Kind.hasDest_of_cutsDest {kind : Kind α} (hk : kind.cutsDest) : kind.hasDest := by
  cases kind <;> simp_all [Kind.hasDest, Kind.cutsDest]

theorem Kind.cutsDest_or_hreturn {kind : Kind α} (hk : kind.hasDest) :
    kind.cutsDest ∨ kind = .hreturn := by
  cases kind <;> simp_all [Kind.hasDest, Kind.cutsDest]

namespace Head

/-- Where the instruction `k` comes to stand: behind the marked instructions in front of it. -/
def newIp (h : Head α) (k : ℕ) : ℕ :=
  Nat.count (fun j => (h.instr j).marked = true) k

/-- A destination, while the loop is at `s`. -/
def relocated (h : Head α) (s d : ℕ) : ℕ :=
  if d < s then h.newIp d else d

/-- No destination falls between the two ways of renumbering. An instruction that is its own
destination reads its old index, so it must not move; a conditional jump that is its own
destination is not back-patched, so its continuation must not move either; and the destination of
an EXIT handler's return is not noted down and not moved to the end of its chain. -/
structure Relocatable (h : Head α) : Prop where
  dest_self : ∀ k < h.elements, (h.instr k).marked → (h.instr k).kind.cutsDest →
    (h.instr k).dest = k → h.newIp k = k
  cont_self : ∀ k < h.elements, (h.instr k).marked → (h.instr k).kind.cutsCont →
    (h.instr k).contDest = k → h.newIp k = k
  cont_of_dest_self : ∀ k < h.elements, (h.instr k).marked → (h.instr k).kind.cutsDest →
    (h.instr k).kind.cutsCont → (h.instr k).dest = k → (h.instr k).contDest < h.elements →
    h.newIp (h.instr k).contDest = (h.instr k).contDest
  hreturn : ∀ k < h.elements, (h.instr k).marked → (h.instr k).kind = .hreturn →
    k < (h.instr k).dest ∧
      (h.elements ≤ (h.instr k).dest ∨ (h.instr (h.instr k).dest).marked) ∨
    h.newIp (h.instr k).dest = (h.instr k).dest

theorem newIp_le (h : Head α) (k : ℕ) : h.newIp k ≤ k := Nat.count_le _

theorem newIp_succ_of_marked (hk : (h.instr k).marked) : h.newIp (k + 1) = h.newIp k + 1 := by
  rw [newIp, Nat.count_succ, if_pos hk, newIp]

theorem newIp_succ_of_not_marked (hk : (h.instr k).marked = false) :
    h.newIp (k + 1) = h.newIp k := by
  rw [newIp, Nat.count_succ, if_neg (by simp [hk]), Nat.add_zero, newIp]

theorem length_filter_marked (h : Head α) (s : ℕ) :
    ((List.range s).filter fun k => (h.instr k).marked).length = h.newIp s := by
  induction s with
  | zero => rfl
  | succ s ih =>
    rw [range_succ, filter_append, length_append, ih]
    cases hs : (h.instr s).marked with
    | true => simp [hs, newIp_succ_of_marked hs]
    | false => simp [hs, newIp_succ_of_not_marked hs]

theorem getElem?_filter_marked (hk : (h.instr k).marked) (hs : k < s) :
    ((List.range s).filter fun k => (h.instr k).marked)[h.newIp k]? = some k := by
  induction s with
  | zero => exact absurd hs (Nat.not_lt_zero k)
  | succ s ih =>
    rw [range_succ, filter_append]
    rcases Nat.lt_succ_iff_lt_or_eq.mp hs with hlt | rfl
    · have hpos : h.newIp k < h.newIp s := Nat.count_strict_mono hk hlt
      rw [List.getElem?_append_left (by rwa [length_filter_marked])]
      exact ih hlt
    · rw [List.getElem?_append_right (by rw [length_filter_marked]), length_filter_marked]
      simp [hk]

theorem relocated_succ_of_ne (hd : d ≠ s) : h.relocated (s + 1) d = h.relocated s d := by
  unfold relocated
  split
  next hlt => rw [if_pos (by omega)]
  next hge => rw [if_neg (by omega)]

theorem relocated_succ_self : h.relocated (s + 1) s = h.newIp s := if_pos (Nat.lt_succ_self s)

theorem relocated_eq_iff : h.relocated s d = s ↔ d = s := by
  unfold relocated
  split
  next hlt =>
    have := h.newIp_le d
    omega
  next => rfl

/-! ### The destinations of a marked program -/

section

variable (hm : Marked code h)

include hm

theorem Marked.dest_kept (hk : (h.instr k).marked)
    (hcuts : (h.instr k).kind.cutsDest) : Kept h (h.instr k).dest := by
  apply hm.succs k hk
  unfold Head.succs
  cases hkind : (h.instr k).kind <;> simp_all [Kind.cutsDest]

theorem Marked.cont_kept (hk : (h.instr k).marked)
    (hcuts : (h.instr k).kind.cutsCont) : Kept h (h.instr k).contDest := by
  apply hm.succs k hk
  unfold Head.succs
  cases hkind : (h.instr k).kind <;> simp_all [Kind.cutsCont]

theorem Marked.dest_marked (hk : (h.instr k).marked)
    (hcuts : (h.instr k).kind.cutsDest) (hlt : (h.instr k).dest < h.elements) :
    (h.instr (h.instr k).dest).marked :=
  (hm.dest_kept hk hcuts).marked_of_solid ((hm.aimed k).dest hk hcuts) hlt

theorem Marked.cont_marked (hk : (h.instr k).marked)
    (hcuts : (h.instr k).kind.cutsCont) (hlt : (h.instr k).contDest < h.elements) :
    (h.instr (h.instr k).contDest).marked :=
  (hm.cont_kept hk hcuts).marked_of_solid ((hm.aimed k).cont hk hcuts) hlt

theorem Marked.dest_passed (hr : h.Relocatable) (hk : (h.instr k).marked)
    (hlt : k < h.elements) (hdest : (h.instr k).kind.hasDest) (hd : (h.instr k).dest < h.elements)
    (hnot : (h.instr (h.instr k).dest).marked = false) :
    h.newIp (h.instr k).dest = (h.instr k).dest := by
  rcases Kind.cutsDest_or_hreturn hdest with hcuts | hret
  · rw [hm.dest_marked hk hcuts hd] at hnot
    exact nomatch hnot
  · rcases hr.hreturn k hlt hk hret with ⟨-, hout | hmark⟩ | hsame
    · exact absurd hd (Nat.not_lt.mpr hout)
    · rw [hmark] at hnot
      exact nomatch hnot
    · exact hsame

/-- The destination `d` of the instruction at `k` when that is moved: backwards it is the place
that its target has got. -/
def movedDest (ip : ℕ → ℕ) (k d : ℕ) (target : Option ℕ) : ℕ :=
  if k < d then d else target.elim d ip

omit hm in
theorem moved_eq {target : Option ℕ} {ip : ℕ → ℕ} (hle : d ≤ k → target.elim d ip = h.newIp d) :
    movedDest ip k d target = h.relocated (k + 1) d := by
  unfold relocated movedDest
  split
  · rw [if_neg (by omega)]
  · rw [if_pos (by omega), hle (by omega)]

section

variable {ip : ℕ → ℕ} (hip : ∀ j < k, (h.instr j).marked → ip j = h.newIp j) (hself : ip k = k)
  (hlt : k < h.elements)
include hip hself hlt

omit hm in
theorem moved_of_marked (hmark : d < h.elements → (h.instr d).marked)
    (hd : d = k → h.newIp k = k) :
    movedDest ip k d (h.getInstr d) = h.relocated (k + 1) d := by
  refine moved_eq fun hle => ?_
  rw [getInstr, if_pos (by omega)]
  rcases hle.lt_or_eq with hback | rfl
  · exact hip d hback (hmark (by omega))
  · exact hself.trans (hd rfl).symm

theorem Marked.dest_moved (hr : h.Relocatable) (hk : (h.instr k).marked)
    (hdest : (h.instr k).kind.hasDest) :
    movedDest ip k (h.instr k).dest (h.instr k).optdest =
      h.relocated (k + 1) (h.instr k).dest := by
  rcases Kind.cutsDest_or_hreturn hdest with hcuts | hret
  · rw [(hm.aimed k).optdest hk hcuts]
    exact moved_of_marked hip hself hlt (hm.dest_marked hk hcuts) (hr.dest_self k hlt hk hcuts)
  · refine moved_eq fun hle => ?_
    rw [(hm.aimed k).no_optdest (.inl (by simp [hret, Kind.cutsDest]))]
    rcases hr.hreturn k hlt hk hret with ⟨hfwd, -⟩ | hip
    · omega
    · exact hip.symm

theorem Marked.cont_moved (hr : h.Relocatable) (hk : (h.instr k).marked)
    (hcuts : (h.instr k).kind.cutsCont) :
    movedDest ip k (h.instr k).contDest (h.instr k).contOptdest =
      h.relocated (k + 1) (h.instr k).contDest := by
  rw [(hm.aimed k).contOptdest hk hcuts]
  exact moved_of_marked hip hself hlt (hm.cont_marked hk hcuts) (hr.cont_self k hlt hk hcuts)

end

end

end Head

/-! ### One instruction is moved -/

namespace Node

theorem setDestination_kind (x : Node α) (old new : ℕ) :
    (x.setDestination old new).kind = x.kind := by
  unfold setDestination
  split <;> rfl

theorem setDestination_ip (x : Node α) (old new : ℕ) : (x.setDestination old new).ip = x.ip := by
  unfold setDestination
  split <;> rfl

theorem setDestination_dest {x : Node α} {old new : ℕ} (hx : x.kind.hasDest) :
    (x.setDestination old new).dest = if x.dest = old then new else x.dest := by
  unfold setDestination
  cases hk : x.kind <;> simp_all [Kind.hasDest]

theorem setDestination_contDest {x : Node α} {old new : ℕ} (hx : x.kind.cutsCont) :
    (x.setDestination old new).contDest = if x.contDest = old then new else x.contDest := by
  unfold setDestination
  cases hk : x.kind <;> simp_all [Kind.cutsCont]

theorem setDestination_twice {x : Node α} {old new : ℕ} (hne : old ≠ new) :
    (x.setDestination old new).setDestination old new = x.setDestination old new := by
  have hite : ∀ v : ℕ, (if (if v = old then new else v) = old then new
      else if v = old then new else v) = if v = old then new else v := by
    intro v
    split_ifs <;> simp_all
  unfold setDestination
  cases hk : x.kind <;> simp [hk, hite]

end Node

namespace Moving

theorem patch_instr (hne : src ≠ dst) (k : ℕ) :
    (m.patch src dst).instr k =
      if k ∈ m.bp then (m.instr k).setDestination src dst else m.instr k := by
  unfold patch
  generalize m.instr = f
  induction m.bp generalizing f with
  | nil => simp
  | cons b bp ih =>
    rw [foldl_cons, ih]
    by_cases hkb : k = b
    · subst hkb
      simp [Node.setDestination_twice hne]
    · simp [hkb]

def movedTo (m : Moving α) (i d : ℕ) (target : Option ℕ) : ℕ :=
  Head.movedDest (fun j => (m.instr j).ip) (m.instr i).ip d target

theorem jumpMove_instr_of_ne (hk : k ≠ i) : (m.jumpMove i dst).instr k = m.instr k := by
  unfold jumpMove
  dsimp only
  repeat' split
  all_goals simp [hk]

theorem jumpMove_instr_self : (m.jumpMove i dst).instr i = { m.instr i with
      ip := dst
      dest := m.movedTo i (m.instr i).dest (m.instr i).optdest } := by
  unfold jumpMove movedTo Head.movedDest
  dsimp only
  split
  · simp
  · split <;> simp [*]

theorem jumpMove_bp : (m.jumpMove i dst).bp =
    m.bp ++ if (m.instr i).ip < (m.instr i).dest then [i] else [] := by
  unfold jumpMove
  dsimp only
  split
  · rfl
  · split <;> simp

theorem contMove_instr_of_ne (hk : k ≠ i) : (m.contMove i).instr k = m.instr k := by
  unfold contMove
  dsimp only
  repeat' split
  all_goals simp [hk]

theorem contMove_instr_self : (m.contMove i).instr i = { m.instr i with
      contDest := m.movedTo i (m.instr i).contDest (m.instr i).contOptdest } := by
  unfold contMove movedTo Head.movedDest
  dsimp only
  split
  · split <;> rfl
  · split
    next => simp [*]
    next hnone =>
      have helim : (m.instr i).contOptdest.elim (m.instr i).contDest (fun d => (m.instr d).ip) =
          (m.instr i).contDest := by rw [hnone, Option.elim_none]
      rw [helim]

theorem contMove_ip (k : ℕ) : ((m.contMove i).instr k).ip = (m.instr k).ip := by
  by_cases hk : k = i
  · rw [hk, contMove_instr_self]
  · rw [contMove_instr_of_ne hk]

theorem contMove_bp : (m.contMove i).bp = m.bp ++
    if (m.instr i).ip < (m.instr i).contDest ∧ (m.instr i).dest < (m.instr i).ip then [i]
    else [] := by
  unfold contMove
  dsimp only
  split
  next hc => split <;> simp [*]
  next hc => split <;> simp [*]

theorem caseMove_instr_of_ne (hk : k ≠ i) : (m.caseMove i dst).instr k = m.instr k := by
  unfold caseMove
  dsimp only
  repeat' split
  all_goals simp [hk]

theorem caseMove_instr_self : (m.caseMove i dst).instr i = { m.instr i with
      ip := dst
      contDest := m.movedTo i (m.instr i).contDest (m.instr i).contOptdest } := by
  unfold caseMove movedTo Head.movedDest
  dsimp only
  split
  · simp
  · split <;> simp [*]

theorem caseMove_bp : (m.caseMove i dst).bp =
    m.bp ++ if (m.instr i).ip < (m.instr i).contDest then [i] else [] := by
  unfold caseMove
  dsimp only
  split
  · rfl
  · split <;> simp

/-! ### What `opt_move` does, for all classes -/

theorem optMove_instr_of_ne (hk : k ≠ i) : (m.optMove i dst).instr k = m.instr k := by
  unfold optMove
  cases (m.instr i).kind with
  | jump | hpushJump | hreturn => exact jumpMove_instr_of_ne hk
  | jumpIfNot => exact (jumpMove_instr_of_ne hk).trans (contMove_instr_of_ne hk)
  | setCaseExpr => exact caseMove_instr_of_ne hk
  | _ => exact Function.update_of_ne hk _ _

theorem optMove_instr_self : (m.optMove i dst).instr i = { m.instr i with
      ip := dst
      dest := if (m.instr i).kind.hasDest then m.movedTo i (m.instr i).dest (m.instr i).optdest
        else (m.instr i).dest
      contDest := if (m.instr i).kind.cutsCont then
          m.movedTo i (m.instr i).contDest (m.instr i).contOptdest
        else (m.instr i).contDest } := by
  unfold optMove
  cases hk : (m.instr i).kind <;>
    simp only [jumpMove_instr_self, contMove_instr_self, contMove_ip, caseMove_instr_self, movedTo,
      Function.update_self, Kind.hasDest, Kind.cutsCont, Bool.false_eq_true, if_false, if_true]

theorem optMove_bp : (m.optMove i dst).bp = m.bp ++
    (if (m.instr i).kind.cutsCont ∧ (m.instr i).ip < (m.instr i).contDest ∧
      ((m.instr i).kind.cutsDest → (m.instr i).dest < (m.instr i).ip) then [i] else []) ++
    if (m.instr i).kind.hasDest ∧ (m.instr i).ip < (m.instr i).dest then [i] else [] := by
  unfold optMove
  cases hk : (m.instr i).kind <;>
    simp [jumpMove_bp, contMove_bp, contMove_instr_self, caseMove_bp, Kind.hasDest, Kind.cutsCont,
      Kind.cutsDest]

end Moving

/-! ### The loop -/

/-- The loop has passed the instructions before `s`. -/
structure Moved (h : Head α) (s : ℕ) (m : Moving α) : Prop where
  out : m.out = (List.range s).filter fun k => (h.instr k).marked
  later : ∀ k, s ≤ k → m.instr k = h.instr k
  kind : ∀ k, (m.instr k).kind = (h.instr k).kind
  ip : ∀ k < s, (h.instr k).marked → (m.instr k).ip = h.newIp k
  dest : ∀ k < s, (h.instr k).marked → (h.instr k).kind.hasDest →
    (m.instr k).dest = h.relocated s (h.instr k).dest
  cont : ∀ k < s, (h.instr k).marked → (h.instr k).kind.cutsCont →
    (m.instr k).contDest = h.relocated s (h.instr k).contDest
  bp_lt : ∀ k ∈ m.bp, k < s
  bp_dest : ∀ k < s, (h.instr k).marked → (h.instr k).kind.hasDest → k < (h.instr k).dest →
    k ∈ m.bp
  bp_cont : ∀ k < s, (h.instr k).marked → (h.instr k).kind.cutsCont → k < (h.instr k).contDest →
    ((h.instr k).kind.cutsDest → (h.instr k).dest ≠ k) → k ∈ m.bp

namespace Moved

theorem start (h : Head α) : Moved h 0 ⟨h.instr, [], []⟩ where
  out := rfl
  later _ _ := rfl
  kind _ := rfl
  ip _ hk := nomatch hk
  dest _ hk := nomatch hk
  cont _ hk := nomatch hk
  bp_lt _ hk := nomatch hk
  bp_dest _ hk := nomatch hk
  bp_cont _ hk := nomatch hk

/-- Whether the loop has passed `s` makes no difference to a destination that is not `s`, or if
`s` keeps its index. -/
theorem relocated_succ (hd : d = s → h.newIp s = s) : h.relocated (s + 1) d = h.relocated s d := by
  by_cases hds : d = s
  · rw [hds, Head.relocated_succ_self, hd hds, Head.relocated_eq_iff.mpr rfl]
  · exact Head.relocated_succ_of_ne hds

theorem skip (hm : Head.Marked code h) (hr : h.Relocatable) (hmv : Moved h s m)
    (hs : s < h.elements) (hnot : (h.instr s).marked = false) : Moved h (s + 1) m := by
  have hold : ∀ k, k < s + 1 → (h.instr k).marked → k < s := by
    intro k hk hmark
    rcases Nat.lt_succ_iff_lt_or_eq.mp hk with hlt | rfl
    · exact hlt
    · rw [hmark] at hnot
      exact nomatch hnot
  refine ⟨?_, fun k hk => hmv.later k (by omega), hmv.kind,
    fun k hk hmark => hmv.ip k (hold k hk hmark) hmark, fun k hk hmark hdest => ?_,
    fun k hk hmark hcuts => ?_, fun k hk => Nat.lt_succ_of_lt (hmv.bp_lt k hk),
    fun k hk hmark => hmv.bp_dest k (hold k hk hmark) hmark,
    fun k hk hmark => hmv.bp_cont k (hold k hk hmark) hmark⟩
  · rw [hmv.out, range_succ]
    simp [hnot]
  · have hlt := hold k hk hmark
    rw [hmv.dest k hlt hmark hdest, relocated_succ]
    intro hds
    rw [← hds]
    exact hm.dest_passed hr hmark (by omega) hdest (hds ▸ hs) (hds ▸ hnot)
  · have hlt := hold k hk hmark
    rw [hmv.cont k hlt hmark hcuts, relocated_succ]
    intro hcs
    have := hm.cont_marked hmark hcuts (hcs ▸ hs)
    rw [hcs, hnot] at this
    exact nomatch this

/-- What the loop is at before `opt_move`: `set_destination(s, dst)` has been done. -/
def patched (m : Moving α) (s dst : ℕ) : Moving α :=
  if s = dst then m else m.patch s dst

theorem patched_bp : (patched m s dst).bp = m.bp := by
  unfold patched
  split <;> rfl

theorem patched_out : (patched m s dst).out = m.out := by
  unfold patched
  split <;> rfl

theorem patched_instr (k : ℕ) : (patched m s dst).instr k =
    if s ≠ dst ∧ k ∈ m.bp then (m.instr k).setDestination s dst else m.instr k := by
  unfold patched
  split
  next heq => simp [heq]
  next hne => simp [Moving.patch_instr hne, hne]

theorem patched_kind (hmv : Moved h s m) (k : ℕ) :
    ((patched m s dst).instr k).kind = (h.instr k).kind := by
  rw [patched_instr]
  split
  · rw [Node.setDestination_kind, hmv.kind]
  · exact hmv.kind k

theorem patched_ip (k : ℕ) : ((patched m s dst).instr k).ip = (m.instr k).ip := by
  rw [patched_instr]
  split
  · rw [Node.setDestination_ip]
  · rfl

theorem patched_later (hmv : Moved h s m) (hk : s ≤ k) : (patched m s dst).instr k = h.instr k := by
  rw [patched_instr, if_neg, hmv.later k hk]
  exact fun hbp => Nat.not_lt.mpr hk (hmv.bp_lt k hbp.2)

theorem set_relocated : (if h.relocated s d = s then h.newIp s else h.relocated s d) =
    h.relocated (s + 1) d := by
  by_cases hds : d = s
  · rw [if_pos (Head.relocated_eq_iff.mpr hds), hds, Head.relocated_succ_self]
  · rw [if_neg (fun heq => hds (Head.relocated_eq_iff.mp heq)), Head.relocated_succ_of_ne hds]

theorem patched_dest (hmv : Moved h s m) (hk : k < s) (hmark : (h.instr k).marked)
    (hdest : (h.instr k).kind.hasDest) :
    ((patched m s (h.newIp s)).instr k).dest = h.relocated (s + 1) (h.instr k).dest := by
  rw [patched_instr]
  split
  · rw [Node.setDestination_dest (by rwa [hmv.kind]), hmv.dest k hk hmark hdest]
    exact set_relocated
  next hnot =>
    rw [hmv.dest k hk hmark hdest, relocated_succ]
    intro hds
    by_contra hne
    exact hnot ⟨Ne.symm hne, hmv.bp_dest k hk hmark hdest (hds ▸ hk)⟩

theorem patched_cont (hmv : Moved h s m) (hr : h.Relocatable) (hs : s < h.elements) (hk : k < s)
    (hmark : (h.instr k).marked) (hcuts : (h.instr k).kind.cutsCont) :
    ((patched m s (h.newIp s)).instr k).contDest = h.relocated (s + 1) (h.instr k).contDest := by
  rw [patched_instr]
  split
  · rw [Node.setDestination_contDest (by rwa [hmv.kind]), hmv.cont k hk hmark hcuts]
    exact set_relocated
  next hnot =>
    rw [hmv.cont k hk hmark hcuts, relocated_succ]
    intro hcs
    by_contra hne
    refine hnot ⟨Ne.symm hne, hmv.bp_cont k hk hmark hcuts (hcs ▸ hk) fun hcd hdk => hne ?_⟩
    rw [← hcs]
    exact hr.cont_of_dest_self k (hk.trans hs) hmark hcd hcuts hdk (hcs ▸ hs)

section

variable (hm : Head.Marked code h) (hr : h.Relocatable)

include hm hr

theorem keep (hmv : Moved h s m) (hs : s < h.elements) (hmark : (h.instr s).marked) :
    Moved h (s + 1) (m.step s) := by
  have hdst : m.out.length = h.newIp s := by rw [hmv.out, Head.length_filter_marked]
  have hstep : m.step s =
      { (patched m s (h.newIp s)).optMove s (h.newIp s) with out := m.out ++ [s] } := by
    have hms : (m.instr s).marked := by rwa [hmv.later s le_rfl]
    rw [Moving.step, if_pos hms, hdst]
    change ({ (patched m s (h.newIp s)).optMove s (h.newIp s) with
      out := (patched m s (h.newIp s)).out ++ [s] } : Moving α) = _
    rw [patched_out]
  have hself : (patched m s (h.newIp s)).instr s = h.instr s := patched_later hmv le_rfl
  have hips : ((patched m s (h.newIp s)).instr s).ip = s := by rw [hself, hm.indexed]
  have hip : ∀ k < s, (h.instr k).marked →
      ((patched m s (h.newIp s)).instr k).ip = h.newIp k := by
    intro k hk hmark
    rw [patched_ip, hmv.ip k hk hmark]
  have hbp {k : ℕ} : k ∈ ((patched m s (h.newIp s)).optMove s (h.newIp s)).bp ↔ k ∈ m.bp ∨ k = s ∧
      ((h.instr s).kind.cutsCont ∧ s < (h.instr s).contDest ∧
          ((h.instr s).kind.cutsDest → (h.instr s).dest < s) ∨
        (h.instr s).kind.hasDest ∧ s < (h.instr s).dest) := by
    rw [Moving.optMove_bp, patched_bp, hself, hm.indexed]
    simp only [mem_append, List.mem_ite_nil_right, mem_singleton]
    tauto
  rw [hstep]
  refine ⟨?_, fun k hk => ?_, fun k => ?_, fun k hk hmk => ?_, fun k hk hmk hdest => ?_,
    fun k hk hmk hcuts => ?_, fun k hk => ?_, fun k hk hmk hdest hd => ?_,
    fun k hk hmk hcuts hc hd => ?_⟩ <;> dsimp only at *
  · rw [hmv.out, range_succ]
    simp [hmark]
  · rw [Moving.optMove_instr_of_ne (by omega), patched_later hmv (by omega)]
  · by_cases hks : k = s
    · rw [hks, Moving.optMove_instr_self, hself]
    · rw [Moving.optMove_instr_of_ne hks, patched_kind hmv]
  · by_cases hks : k = s
    · rw [hks, Moving.optMove_instr_self]
    · rw [Moving.optMove_instr_of_ne hks, hip k (by omega) hmk]
  · by_cases hks : k = s
    · subst hks
      simp only [Moving.optMove_instr_self, Moving.movedTo, hself, hm.indexed k, hdest, if_true]
      exact hm.dest_moved hip hips hs hr hmk hdest
    · rw [Moving.optMove_instr_of_ne hks, patched_dest hmv (by omega) hmk hdest]
  · by_cases hks : k = s
    · subst hks
      simp only [Moving.optMove_instr_self, Moving.movedTo, hself, hm.indexed k, hcuts, if_true]
      exact hm.cont_moved hip hips hs hr hmk hcuts
    · rw [Moving.optMove_instr_of_ne hks, patched_cont hmv hr hs (by omega) hmk hcuts]
  · rcases hbp.mp hk with hk | ⟨rfl, -⟩
    · exact Nat.lt_succ_of_lt (hmv.bp_lt k hk)
    · exact Nat.lt_succ_self k
  · rcases Nat.lt_succ_iff_lt_or_eq.mp hk with hlt | rfl
    · exact hbp.mpr (.inl (hmv.bp_dest k hlt hmk hdest hd))
    · exact hbp.mpr (.inr ⟨rfl, .inr ⟨hdest, hd⟩⟩)
  · rcases Nat.lt_succ_iff_lt_or_eq.mp hk with hlt | rfl
    · exact hbp.mpr (.inl (hmv.bp_cont k hlt hmk hcuts hc hd))
    · refine hbp.mpr (.inr ⟨rfl, ?_⟩)
      by_cases hfwd : (h.instr k).kind.hasDest ∧ k < (h.instr k).dest
      · exact .inr hfwd
      · refine .inl ⟨hcuts, hc, fun hcd => ?_⟩
        have := hd hcd
        have := mt (And.intro (Kind.hasDest_of_cutsDest hcd)) hfwd
        omega

theorem step (hmv : Moved h s m) (hs : s < h.elements) : Moved h (s + 1) (m.step s) := by
  cases hmark : (h.instr s).marked with
  | true => exact hmv.keep hm hr hs hmark
  | false =>
    have hstep : m.step s = m := by
      rw [Moving.step, hmv.later s le_rfl, hmark, if_neg (by simp)]
    rw [hstep]
    exact hmv.skip hm hr hs hmark

theorem run (hs : s ≤ h.elements) :
    Moved h s ((List.range s).foldl Moving.step ⟨h.instr, [], []⟩) := by
  induction s with
  | zero => exact start h
  | succ s ih =>
    rw [range_succ, foldl_append]
    exact (ih (by omega)).step hm hr (by omega)

end

end Moved

/-! ### The new array -/

namespace Head

/-- The instruction `k` as it stands in the new array. -/
structure Renumbered (h : Head α) (k : ℕ) (op : Op α) : Prop where
  kind : op.kind = (h.instr k).kind
  dest : (h.instr k).kind.hasDest → op.dest = h.relocated h.elements (h.instr k).dest
  cont : (h.instr k).kind.cutsCont → op.contDest = h.relocated h.elements (h.instr k).contDest

theorem compacted_length (hm : Marked code h) (hr : h.Relocatable) :
    h.compacted.length = h.newIp h.elements := by
  rw [compacted, length_map, move, (Moved.run hm hr le_rfl).out, length_filter_marked]

theorem compacted_getElem? (hm : Marked code h) (hr : h.Relocatable) (hk : (h.instr k).marked)
    (hlt : k < h.elements) : ∃ op, h.compacted[h.newIp k]? = some op ∧ h.Renumbered k op := by
  have hmv := Moved.run hm hr le_rfl
  refine ⟨_, ?_, hmv.kind k, hmv.dest k hlt hk, hmv.cont k hlt hk⟩
  rw [compacted, List.getElem?_map, move, hmv.out, getElem?_filter_marked hk hlt, Option.map_some]

end Head

end MySQL.Sql.Sp
