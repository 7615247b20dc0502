import MySQL.Mdl.Lock

/-!
# The search for deadlocks

`MDL_context::find_deadlock` over a frozen state of waits.  The visitor marks nothing: a search
follows every path, and gives up at the depth limit.
-/

namespace MySQL.Mdl

open List Function

/-- `MAX_SEARCH_DEPTH`. -/
def maxSearchDepth : ℕ := 32

/-- What a context waits for: its ticket and the lock of the ticket. -/
structure Wait where
  ticket : MdlTicket
  lock : MdlLock

/-- `MDL_ticket::get_deadlock_weight`. -/
def Wait.deadlockWeight (w : Wait) : ℕ :=
  if w.lock.key.mdlNamespace = .global ∨ MdlType.sharedNoWrite.toNat ≤ w.ticket.type.toNat then 100
  else 0

/-- The contexts that the waiting ticket is blocked by, in the order of the two loops. -/
def Wait.edges (w : Wait) (src : ContextId) : List ContextId :=
  ((w.lock.granted.list.filter fun k =>
    k.ctx ≠ src && decide (Incompatible w.lock.kind w.ticket.type k.type)) ++
  w.lock.waiting.list.filter fun k =>
    k.ctx ≠ src &&
      decide (mdlBit k.type &&& incompatibleWaitingTypesBitmap w.lock.kind w.ticket.type ≠ 0#8)).map
    MdlTicket.ctx

/-- A finite state of waits: `m_waiting_for` of every context. -/
structure Waits where
  contexts : Finset ContextId
  waitingFor : ContextId → Option Wait
  finite : ∀ c, waitingFor c ≠ none → c ∈ contexts

/-- `Deadlock_detection_visitor`.  The depth is an argument of the search.  No function reads
`limit`, which says whether the depth limit was reached, and `trail`, the contexts left since the
deadlock was found. -/
structure Visitor where
  found : Bool
  victim : Option ContextId
  limit : Bool
  trail : List ContextId

def Visitor.init : Visitor := ⟨false, none, false, []⟩

namespace Waits

variable (s : Waits) (slots : Slots) (start : ContextId)

def deadlockWeight (c : ContextId) : ℕ := ((s.waitingFor c).map Wait.deadlockWeight).getD 0

def edges (c : ContextId) : List ContextId := ((s.waitingFor c).map (·.edges c)).getD []

def optChangeVictimTo (v : Visitor) (c : ContextId) : Visitor :=
  if v.victim.all (s.deadlockWeight c ≤ s.deadlockWeight ·) then { v with victim := some c } else v

/-- `enter_node`, which gives up if no depth is left. -/
def enterNode (depth : ℕ) (v : Visitor) (c : ContextId) : Visitor :=
  if depth = 0 then s.optChangeVictimTo { v with found := true, limit := true } c
  else { v with found := false }

def leaveNode (v : Visitor) (c : ContextId) : Visitor :=
  if v.found then { s.optChangeVictimTo v c with trail := c :: v.trail } else v

/-- The loops that call `inspect_edge`. -/
def inspectEdges : List ContextId → Visitor → Visitor
  | [], v => v
  | e :: es, v =>
    if e = start then { v with found := true } else inspectEdges es { v with found := false }

/-- The loops that call `visit_subgraph`. -/
def visitAll (visit : ContextId → Visitor → Bool × Visitor) :
    List ContextId → Visitor → Bool × Visitor
  | [], v => (false, v)
  | e :: es, v =>
    match visit e v with
    | (true, v) => (true, v)
    | (false, v) => visitAll visit es v

/-- `MDL_context::visit_subgraph` with `MDL_lock::visit_subgraph`; `depth` more contexts may be
entered below the context. -/
def visitSubgraph (depth : ℕ) (c : ContextId) (v : Visitor) : Bool × Visitor :=
  if s.waitingFor c = none ∨ slots c ≠ .empty then (false, v)
  else
    let v := s.enterNode depth v c
    match depth with
    | 0 => (true, v)
    | depth + 1 =>
      let v := inspectEdges start (s.edges c) v
      if v.found then (true, s.leaveNode v c)
      else
        let (result, v) := visitAll (visitSubgraph depth) (s.edges c) v
        (result, s.leaveNode v c)

/-- A search of `find_deadlock`. -/
def search : Bool × Visitor := s.visitSubgraph slots start (maxSearchDepth - 1) start .init

/-- The context waits for the other one, and nobody has written into its slot. -/
def Edge (c d : ContextId) : Prop := slots c = .empty ∧ d ∈ s.edges c

/-! ## What a search finds -/

variable {s slots start} {c d x : ContextId} {v : Visitor} {depth : ℕ}

theorem waitingFor_ne_none (h : d ∈ s.edges c) : s.waitingFor c ≠ none := by
  intro hnone
  rw [edges, hnone] at h
  exact not_mem_nil h

theorem not_transGen_of_skip (h : s.waitingFor c = none ∨ slots c ≠ .empty) :
    ¬ Relation.TransGen (s.Edge slots) c start := by
  intro htrans
  obtain ⟨d, hedge, -⟩ := Relation.TransGen.head'_iff.mp htrans
  rcases h with h | h
  · exact waitingFor_ne_none hedge.2 h
  · exact h hedge.1

/-- The visitor was told of a deadlock below `c`: without the depth limit, the trail is a path from
`c` to the start, and the victim is a lightest context of it. -/
structure Caught (s : Waits) (slots : Slots) (start c : ContextId) (v : Visitor) : Prop where
  found : v.found = true
  victim : ∃ x ∈ s.contexts, v.victim = some x ∧ slots x = .empty
  path : v.limit = false → v.trail.head? = some c ∧
    List.IsChain (s.Edge slots) (v.trail ++ [start]) ∧
    ∃ x ∈ v.trail, v.victim = some x ∧ ∀ y ∈ v.trail, s.deadlockWeight x ≤ s.deadlockWeight y

theorem optChangeVictimTo_cases (s : Waits) (v : Visitor) (c : ContextId) :
    (s.optChangeVictimTo v c = { v with victim := some c } ∧
      ∀ x, v.victim = some x → s.deadlockWeight c ≤ s.deadlockWeight x) ∨
    s.optChangeVictimTo v c = v ∧
      ∃ x, v.victim = some x ∧ s.deadlockWeight x < s.deadlockWeight c := by
  unfold optChangeVictimTo
  split
  · next h =>
    refine .inl ⟨rfl, fun x hx => ?_⟩
    rw [hx] at h
    exact of_decide_eq_true h
  · next h =>
    refine .inr ⟨rfl, ?_⟩
    generalize v.victim = victim at h ⊢
    cases victim with
    | none => exact absurd rfl h
    | some x => exact ⟨x, rfl, not_le.mp fun hle => h (decide_eq_true hle)⟩

/-- The visitor leaves the last context of a cycle. -/
theorem Caught.single (hc : c ∈ s.contexts) (hedge : s.Edge slots c start) (hfound : v.found = true)
    (hvictim : v.victim = none) (htrail : v.trail = []) :
    Caught s slots start c (s.leaveNode v c) := by
  have hleave : s.leaveNode v c = { v with victim := some c, trail := [c] } := by
    rw [leaveNode, if_pos hfound, optChangeVictimTo, hvictim, htrail]
    rfl
  rw [hleave]
  refine ⟨hfound, ⟨c, hc, rfl, hedge.1⟩, fun _ => ⟨rfl, by simpa using hedge, c, ?_⟩⟩
  exact ⟨mem_singleton_self c, rfl, fun y hy => (mem_singleton.mp hy ▸ le_rfl)⟩

/-- The visitor leaves a context on the way back to the start. -/
theorem Caught.cons (h : Caught s slots start d v) (hc : c ∈ s.contexts)
    (hedge : s.Edge slots c d) : Caught s slots start c (s.leaveNode v c) := by
  have hchain (hlimit : v.limit = false) :
      List.IsChain (s.Edge slots) ((c :: v.trail) ++ [start]) := by
    obtain ⟨hhead, hchain, -⟩ := h.path hlimit
    obtain ⟨rest, hrest⟩ := List.head?_eq_some_iff.mp hhead
    rw [hrest] at hchain ⊢
    exact hchain.cons_cons hedge
  rw [leaveNode, if_pos h.found]
  rcases optChangeVictimTo_cases s v c with ⟨heq, hle⟩ | ⟨heq, x, hx, hlt⟩
  · rw [heq]
    refine ⟨h.found, ⟨c, hc, rfl, hedge.1⟩, fun hlimit => ⟨rfl, hchain hlimit, c, ?_⟩⟩
    obtain ⟨-, -, x, -, hx, hmin⟩ := h.path hlimit
    refine ⟨mem_cons_self, rfl, fun y hy => ?_⟩
    rcases mem_cons.mp hy with rfl | hy
    · exact le_rfl
    · exact (hle x hx).trans (hmin y hy)
  · rw [heq]
    refine ⟨h.found, h.victim, fun hlimit => ⟨rfl, hchain hlimit, x, ?_⟩⟩
    obtain ⟨-, -, x', hmem, hx', hmin⟩ := h.path hlimit
    obtain rfl : x' = x := Option.some.inj (hx'.symm.trans hx)
    refine ⟨mem_cons_of_mem c hmem, hx, fun y hy => ?_⟩
    rcases mem_cons.mp hy with rfl | hy
    · exact hlt.le
    · exact hmin y hy

theorem inspectEdges_spec (start : ContextId) (es : List ContextId) (v : Visitor) :
    (start ∈ es ∧ inspectEdges start es v = { v with found := true }) ∨
      start ∉ es ∧ (v.found = false → inspectEdges start es v = v) := by
  induction es generalizing v with
  | nil => exact .inr ⟨not_mem_nil, fun _ => rfl⟩
  | cons e es ih =>
    by_cases he : e = start
    · exact .inl ⟨he ▸ mem_cons_self, by rw [inspectEdges, if_pos he]⟩
    rw [inspectEdges, if_neg he, mem_cons]
    rcases ih { v with found := false } with ⟨hmem, heq⟩ | ⟨hmem, heq⟩
    · exact .inl ⟨.inr hmem, heq⟩
    · refine .inr ⟨?_, fun hv => ?_⟩
      · rintro (h | h)
        · exact he h.symm
        · exact hmem h
      · rw [heq rfl, ← hv]

/-- What a visit does with a visitor that was told of nothing. -/
def VisitSpec (s : Waits) (slots : Slots) (start c : ContextId) (result : Bool × Visitor) : Prop :=
  (result = (false, .init) ∧ ¬ Relation.TransGen (s.Edge slots) c start) ∨
    result.1 = true ∧ Caught s slots start c result.2

theorem visitAll_spec {visit : ContextId → Visitor → Bool × Visitor}
    (hvisit : ∀ c, VisitSpec s slots start c (visit c .init)) (es : List ContextId) :
    (visitAll visit es .init = (false, .init) ∧
      ∀ e ∈ es, ¬ Relation.TransGen (s.Edge slots) e start) ∨ (visitAll visit es .init).1 = true ∧
      ∃ e ∈ es, Caught s slots start e (visitAll visit es .init).2 := by
  induction es with
  | nil => exact .inl ⟨rfl, fun e he => (not_mem_nil he).elim⟩
  | cons e es ih =>
    rw [visitAll]
    rcases hvisit e with ⟨heq, hno⟩ | ⟨htrue, hcaught⟩
    · rw [heq]
      rcases ih with ⟨heq', hno'⟩ | ⟨htrue, e', he', hcaught⟩
      · exact .inl ⟨heq', forall_mem_cons.mpr ⟨hno, hno'⟩⟩
      · exact .inr ⟨htrue, e', mem_cons_of_mem e he', hcaught⟩
    · rw [← Prod.eta (visit e .init), htrue]
      exact .inr ⟨rfl, e, mem_cons_self, hcaught⟩

theorem not_transGen (hstart : start ∉ s.edges c)
    (hedges : ∀ e ∈ s.edges c, ¬ Relation.TransGen (s.Edge slots) e start) :
    ¬ Relation.TransGen (s.Edge slots) c start := by
  intro h
  obtain ⟨d, hedge, hrest⟩ := Relation.TransGen.head'_iff.mp h
  rcases Relation.reflTransGen_iff_eq_or_transGen.mp hrest with rfl | hrest
  · exact hstart hedge.2
  · exact hedges d hedge.2 hrest

theorem visitSubgraph_spec (s : Waits) (slots : Slots) (start : ContextId) (depth : ℕ)
    (c : ContextId) : VisitSpec s slots start c (s.visitSubgraph slots start depth c .init) := by
  induction depth generalizing c with
  | zero =>
    unfold visitSubgraph
    split
    · next hskip => exact .inl ⟨rfl, not_transGen_of_skip hskip⟩
    · next henter =>
      obtain ⟨hwait, hempty⟩ := not_or.mp henter
      -- The depth limit is reached: nothing is said about a path.
      exact .inr ⟨rfl, rfl, ⟨c, s.finite c hwait, rfl, not_not.mp hempty⟩, fun h => nomatch h⟩
  | succ depth ih =>
    unfold visitSubgraph
    split
    · next hskip => exact .inl ⟨rfl, not_transGen_of_skip hskip⟩
    next henter =>
    obtain ⟨hwait, hempty⟩ := not_or.mp henter
    have hc : c ∈ s.contexts := s.finite c hwait
    have hedge {d : ContextId} (hd : d ∈ s.edges c) : s.Edge slots c d := ⟨not_not.mp hempty, hd⟩
    have hinit : s.enterNode (depth + 1) .init c = .init := rfl
    rw [hinit]
    dsimp only
    rcases inspectEdges_spec start (s.edges c) .init with ⟨hmem, heq⟩ | ⟨hmem, heq⟩
    · rw [heq]
      exact .inr ⟨rfl, Caught.single (v := ⟨true, none, false, []⟩) hc (hedge hmem) rfl rfl rfl⟩
    · have hnot : ¬ Visitor.init.found = true := Bool.false_ne_true
      rw [heq rfl]
      rcases visitAll_spec ih (s.edges c) with ⟨hall, hno⟩ | ⟨htrue, e, he, hcaught⟩
      · rw [hall]
        exact .inl ⟨rfl, not_transGen hmem hno⟩
      · exact .inr ⟨htrue, hcaught.cons hc (hedge he)⟩

theorem exists_victim (h : (s.search slots start).1 = true) :
    ∃ x ∈ s.contexts, (s.search slots start).2.victim = some x ∧ slots x = .empty := by
  rcases visitSubgraph_spec s slots start (maxSearchDepth - 1) start with ⟨heq, -⟩ | ⟨-, hcaught⟩
  · rw [search, heq] at h
    exact nomatch h
  · exact hcaught.victim

/-! ## The searches of `find_deadlock` -/

/-- `MDL_wait::set_status`. -/
def setStatus (slots : Slots) (c : ContextId) (status : WaitStatus) : Slots :=
  if slots c = .empty then update slots c status else slots

theorem setStatus_card_lt (hx : x ∈ s.contexts) (hempty : slots x = .empty) :
    (s.contexts.filter (setStatus slots x .victim · = .empty)).card <
      (s.contexts.filter (slots · = .empty)).card := by
  rw [setStatus, if_pos hempty]
  refine Finset.card_lt_card (Finset.ssubset_iff_of_subset (fun c hc => ?_) |>.mpr ⟨x, ?_, ?_⟩)
  · rw [Finset.mem_filter] at hc ⊢
    by_cases hcx : c = x
    · exact ⟨hc.1, hcx ▸ hempty⟩
    · rwa [update_of_ne hcx] at hc
  · exact Finset.mem_filter.mpr ⟨hx, hempty⟩
  · simp

/-- `find_deadlock`.  Every search but the last writes a slot that was empty. -/
def findDeadlock (s : Waits) (start : ContextId) (slots : Slots) : Slots :=
  if _h : (s.search slots start).1 = true then
    match _hvictim : (s.search slots start).2.victim with
    | none => slots
    | some victim =>
      if victim = start then setStatus slots victim .victim
      else findDeadlock s start (setStatus slots victim .victim)
  else slots
termination_by (s.contexts.filter (slots · = .empty)).card
decreasing_by
  obtain ⟨x, hx, heq, hempty⟩ := exists_victim _h
  obtain rfl : x = victim := Option.some.inj (heq.symm.trans _hvictim)
  exact setStatus_card_lt hx hempty

theorem findDeadlock_of_victim (hfound : (s.search slots start).1 = true)
    (hvictim : (s.search slots start).2.victim = some x) :
    s.findDeadlock start slots =
      if x = start then setStatus slots x .victim
      else s.findDeadlock start (setStatus slots x .victim) := by
  rw [findDeadlock, dif_pos hfound]
  split
  · next hnone => exact nomatch hnone.symm.trans hvictim
  · next x' hx' =>
    obtain rfl : x' = x := Option.some.inj (hx'.symm.trans hvictim)
    rfl

/-- Context `c` waits for a table that the other of the contexts 0 and 1 has. -/
def crossed : Waits where
  contexts := {0, 1}
  waitingFor c :=
    if c = 0 ∨ c = 1 then
      let lock := MdlLock.create ⟨.table, "d", if c = 0 then "b" else "a"⟩
      let ticket : MdlTicket := ⟨c, c, .exclusive⟩
      some ⟨ticket, (lock.grant ⟨3 - c, 1 - c, .sharedRead⟩).enqueue ticket⟩
    else none
  finite c h := by
    by_contra hc
    rw [Finset.mem_insert, Finset.mem_singleton] at hc
    exact h (if_neg hc)

end Waits

end MySQL.Mdl
