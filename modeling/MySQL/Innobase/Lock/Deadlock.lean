import MySQL.Innobase.Lock.Add

/-!
# The search for deadlocks

A search that finds nothing has marked a set of transactions which contains the one that
asks, and which the waits-for relation leaves only towards transactions that do not wait.
A search that finds a cycle through the transaction that asks cancels a request on it, so
there are at most as many searches as requests that wait.
-/

namespace MySQL.Innobase

open List

namespace LockSys

variable {cfg : LockConfig} {s : LockSys} {l a w wl : Lock} {q : Queue}
  {d y : Option TrxRef} {start t u trx : TrxRef} {x x' : DeadlockSearch}

theorem Basic.waitLock?_eq (h : Basic d y s) (hl : l ∈ s.locks) (hw : l.wait) :
    s.waitLock? l.trx = some l := by
  rw [waitLock?, h.waitLock l hl hw]
  exact find?_eq_some_iff.mpr ⟨hl, rfl⟩

theorem Basic.of_waitLock? (h : Basic none y s) (hl : s.waitLock? t = some l) :
    l ∈ s.locks ∧ l.wait ∧ l.trx = t := by
  obtain ⟨i, hi, hfind⟩ := Option.bind_eq_some_iff.mp hl
  obtain ⟨hl, hid⟩ := find?_eq_some_iff.mp hfind
  obtain ⟨k, hk, hki, htrx, hw⟩ := h.pointed t i (Option.some_ne_none t) hi
  obtain rfl := eq_of_id_eq hl hk (hid.trans hki.symm)
  exact ⟨hl, hw, htrx⟩

/-! ## One search -/

def Done (s : LockSys) (start : TrxRef) (marks : List TrxRef) : Prop :=
  Lib.Explored (Edge s) start (· ∈ marks)

def Owns (s : LockSys) (trx : TrxRef) (wl : Lock) : Prop :=
  ∀ k ∈ s.locks, k.wait → k.trx = trx → k = wl

theorem Basic.owns (h : Basic none y s) (hl : s.waitLock? t = some l) : Owns s t l := by
  obtain ⟨hl, hw, htrx⟩ := h.of_waitLock? hl
  exact fun k hk hkw hkt => h.wait_unique hk hl hkw hw (hkt.trans htrx.symm)

/-- What the recursive call has to guarantee when it finds nothing. -/
structure Visited (s : LockSys) (start trx : TrxRef) (x x' : DeadlockSearch) : Prop where
  marks : x.marks ⊆ x'.marks
  self : trx ∈ x'.marks
  done : Done s start x.marks → Done s start x'.marks

theorem Basic.scanAhead_notFound (h : Basic none (some start) s) {tooDeep : Bool}
    {search : TrxRef → Lock → DeadlockSearch → DeadlockResult × DeadlockSearch}
    (hsearch : ∀ trx wl x x', s.waitLock? trx = some wl → search trx wl x = (.notFound, x') →
      Visited s start trx x x') {locks : List Lock}
    (hscan : s.scanAhead cfg start trx wl tooDeep search locks x = (.notFound, x')) :
    ∃ marks, x'.marks = trx :: marks ∧ x.marks ⊆ marks ∧
      (Done s start x.marks → Done s start marks) ∧
      ∀ a ∈ locks, lockHasToWait wl a = true →
        a.trx ≠ start ∧ ((∃ u, Edge s a.trx u) → a.trx ∈ marks) := by
  induction locks generalizing x with
  | nil =>
    obtain rfl : { x with marks := trx :: x.marks } = x' := congrArg Prod.snd hscan
    exact ⟨x.marks, rfl, List.Subset.refl _, id, fun _ ha => absurd ha not_mem_nil⟩
  | cons l rest ih =>
    unfold LockSys.scanAhead at hscan
    split at hscan
    next hwait =>
      split at hscan
      next => split at hscan <;> cases hscan
      next hstart =>
        split at hscan
        next => cases hscan
        next =>
          split at hscan
          next wl' hwl =>
            split at hscan
            next x₁ hcall =>
              have hwl : s.waitLock? l.trx = some wl' := by
                split at hwl
                · exact hwl
                · cases hwl
              have hvisited := hsearch l.trx wl' x x₁ hwl hcall
              obtain ⟨marks, hmarks, hsub, hdone, hrest⟩ := ih hscan
              refine ⟨marks, hmarks, fun m hm => hsub (hvisited.marks hm),
                fun hx => hdone (hvisited.done hx), forall_mem_cons.mpr ⟨fun _ => ?_, hrest⟩⟩
              exact ⟨hstart, fun _ => hsub hvisited.self⟩
            next result hresult =>
              exact absurd hscan (hresult x')
          next hnone =>
            obtain ⟨marks, hmarks, hsub, hdone, hrest⟩ := ih hscan
            refine ⟨marks, hmarks, hsub, hdone, forall_mem_cons.mpr ⟨fun _ => ?_, hrest⟩⟩
            refine ⟨hstart, fun ⟨u, k, hk, hkw, htrx, _⟩ => ?_⟩
            -- A transaction with an edge has a request that waits, and is in a lock wait.
            have hque := h.lockWait l.trx (by simpa using hstart)
            rw [← htrx, h.waitLock k hk hkw] at hque
            rw [← htrx, hque] at hnone
            have hsome := h.waitLock?_eq hk hkw
            exact absurd (hsome.symm.trans hnone) (Option.some_ne_none k)
    next hwait =>
      obtain ⟨marks, hmarks, hsub, hdone, hrest⟩ := ih hscan
      exact ⟨marks, hmarks, hsub, hdone,
        forall_mem_cons.mpr ⟨fun hw => absurd hw hwait, hrest⟩⟩

theorem Basic.visited (h : Basic none (some start) s) (howns : Owns s trx wl)
    {marks : List TrxRef} (hmarks : x'.marks = trx :: marks) (hsub : x.marks ⊆ marks)
    (hdone : Done s start x.marks → Done s start marks)
    (hahead : ∀ a ∈ s.locksAhead wl, lockHasToWait wl a = true →
      a.trx ≠ start ∧ ((∃ u, Edge s a.trx u) → a.trx ∈ marks)) :
    Visited s start trx x x' where
  marks m hm := hmarks ▸ mem_cons_of_mem trx (hsub hm)
  self := hmarks ▸ mem_cons_self
  done hx := by
    rw [hmarks]
    intro m hm u hedge
    rcases mem_cons.mp hm with rfl | hm
    · obtain ⟨k, hk, hkw, htrx, a, ha, hlt, hblocks, rfl⟩ := hedge
      obtain rfl := howns k hk hkw htrx
      obtain ⟨q, hq⟩ := h.single k hk hkw
      obtain ⟨hon, hwait⟩ := hq.blocks_iff.mp hblocks
      obtain ⟨hne, hmem⟩ := hahead a ((mem_locksAhead_iff hk hq).mpr ⟨ha, hlt, hon⟩)
        (hq.lockHasToWait_eq.trans hwait)
      exact ⟨hne, fun hu => mem_cons_of_mem m (hmem hu)⟩
    · obtain ⟨hne, hmem⟩ := hdone hx m hm u hedge
      exact ⟨hne, fun hu => mem_cons_of_mem trx (hmem hu)⟩

theorem Basic.lockDeadlockRecursive_notFound (h : Basic none (some start) s) {levels : ℕ}
    (howns : Owns s trx wl)
    (hcall : s.lockDeadlockRecursive cfg start levels trx wl x = (.notFound, x')) :
    Visited s start trx x x' := by
  induction levels generalizing trx wl x x' with
  | zero =>
    unfold LockSys.lockDeadlockRecursive at hcall
    split at hcall
    next hmem =>
      obtain rfl : x = x' := congrArg Prod.snd hcall
      exact ⟨List.Subset.refl _, hmem, id⟩
    next =>
      obtain ⟨marks, hmarks, hsub, hdone, hahead⟩ :=
        h.scanAhead_notFound (fun _ _ _ _ _ hnever => by cases hnever) hcall
      exact h.visited howns hmarks hsub hdone hahead
  | succ levels ih =>
    unfold LockSys.lockDeadlockRecursive at hcall
    split at hcall
    next hmem =>
      obtain rfl : x = x' := congrArg Prod.snd hcall
      exact ⟨List.Subset.refl _, hmem, id⟩
    next =>
      obtain ⟨marks, hmarks, hsub, hdone, hahead⟩ :=
        h.scanAhead_notFound (fun _ _ _ _ hwl hrec => ih (h.owns hwl) hrec) hcall
      exact h.visited howns hmarks hsub hdone hahead

def IsVictim (s : LockSys) (start : TrxRef) (w : Lock) : Prop :=
  w ∈ s.locks ∧ w.wait ∧ w.trx ≠ start

theorem trx_ne_of_lockHasToWait (h : lockHasToWait l a = true) : l.trx ≠ a.trx := by
  unfold lockHasToWait at h
  split at h
  next hcond => exact of_decide_eq_true (Bool.and_eq_true .. |>.mp hcond).1
  next => cases h

theorem scanAhead_victim {tooDeep : Bool}
    {search : TrxRef → Lock → DeadlockSearch → DeadlockResult × DeadlockSearch}
    (hsearch : ∀ trx wl x x', s.waitLock? trx = some wl →
      search trx wl x = (.victimIsOther w, x') → IsVictim s start w)
    (hwl : wl.trx ≠ start → wl ∈ s.locks ∧ wl.wait) {locks : List Lock}
    (hscan : s.scanAhead cfg start trx wl tooDeep search locks x = (.victimIsOther w, x')) :
    IsVictim s start w := by
  induction locks generalizing x with
  | nil => cases hscan
  | cons l rest ih =>
    unfold LockSys.scanAhead at hscan
    split at hscan
    next hwait =>
      split at hscan
      next hstart =>
        split at hscan
        · cases hscan
        · cases hscan
          have hne : w.trx ≠ start := hstart ▸ trx_ne_of_lockHasToWait hwait
          exact ⟨(hwl hne).1, (hwl hne).2, hne⟩
      next hstart =>
        split at hscan
        next => cases hscan
        next =>
          split at hscan
          next wl' hfound =>
            split at hscan
            next => exact ih hscan
            next =>
              refine hsearch l.trx wl' x x' ?_ hscan
              split at hfound
              · exact hfound
              · cases hfound
          next => exact ih hscan
    next => exact ih hscan

theorem Basic.lockDeadlockRecursive_victim (h : Basic none y s) {levels : ℕ}
    (hwl : wl.trx ≠ start → wl ∈ s.locks ∧ wl.wait)
    (hcall : s.lockDeadlockRecursive cfg start levels trx wl x = (.victimIsOther w, x')) :
    IsVictim s start w := by
  induction levels generalizing trx wl x x' with
  | zero =>
    unfold LockSys.lockDeadlockRecursive at hcall
    split at hcall
    next => cases hcall
    next => exact scanAhead_victim (fun _ _ _ _ _ hnever => by cases hnever) hwl hcall
  | succ levels ih =>
    unfold LockSys.lockDeadlockRecursive at hcall
    split at hcall
    next => cases hcall
    next =>
      refine scanAhead_victim (fun trx' wl' x₁ x₂ hfound hrec => ih ?_ hrec) hwl hcall
      exact fun _ => ⟨(h.of_waitLock? hfound).1, (h.of_waitLock? hfound).2.1⟩

/-! ## The searches for one request -/

/-- What holds after the last search. -/
structure Resolved (start : TrxRef) (found : Bool) (s s' : LockSys) : Prop where
  freed : Freed none (some start) s s'
  kept : ∀ k ∈ s.locks, k.trx = start → place k ∈ s'.locks.map place
  acyclic : found = false → ¬ Relation.TransGen (Edge s') start start

theorem not_transGen_of_not_wait (h : ∀ k ∈ s.locks, k.wait → k.trx ≠ start) :
    ¬ Relation.TransGen (Edge s) start start := by
  intro hcycle
  obtain ⟨u, ⟨k, hk, hkw, htrx, -⟩, -⟩ := Relation.TransGen.head'_iff.mp hcycle
  exact h k hk hkw htrx

theorem Basic.deadlockSearches (h : Basic none (some start) s) {i : LockId}
    (hreq : ∀ l ∈ s.locks, l.id = i → l.trx = start)
    (hown : ∀ l ∈ s.locks, l.wait → l.trx = start → l.id = i) {searches : ℕ}
    (hsearches : s.locks.countP Lock.wait < searches) (cost : ℕ) :
    ∃ found s', LockSys.deadlockSearches cfg start i searches cost s = some (found, s') ∧
      Resolved start found s s' := by
  induction searches generalizing s cost with
  | zero => exact absurd hsearches (Nat.not_lt_zero _)
  | succ searches ih =>
    have hkept : ∀ k ∈ s.locks, k.trx = start → place k ∈ s.locks.map place :=
      fun k hk _ => List.mem_map_of_mem hk
    unfold LockSys.deadlockSearches
    split
    next hnone =>
      refine ⟨false, s, rfl, .refl h, hkept,
        fun _ => not_transGen_of_not_wait fun k hk hkw htrx => ?_⟩
      have hsome := find?_eq_some_iff.mpr ⟨hk, hown k hk hkw htrx⟩
      exact absurd (hsome.symm.trans hnone) (Option.some_ne_none k)
    next l hfind =>
      obtain ⟨hl, hid⟩ := find?_eq_some_iff.mp hfind
      have howns : Owns s start l :=
        fun k hk hkw htrx => eq_of_id_eq hk hl ((hown k hk hkw htrx).trans hid.symm)
      split
      next x hcall =>
        have hvisited := h.lockDeadlockRecursive_notFound howns hcall
        have hdone : Done s start x.marks :=
          hvisited.done fun _ hm => absurd hm not_mem_nil
        exact ⟨false, s, rfl, .refl h, hkept, fun _ => hdone.not_transGen hvisited.self⟩
      next w x hcall =>
        obtain ⟨hw, hww, htrx⟩ := h.lockDeadlockRecursive_victim
          (fun hne => absurd (hreq l hl hid) hne) hcall
        obtain ⟨hfreed, hout⟩ := h.lockCancelWaitingAndRelease hw hww
        have hfewer := hfreed.release.countP_wait_lt hw hww hout
        obtain ⟨found, s', hsome, hresolved⟩ := ih hfreed.basic
          (fun l' hl' hid' => by
            obtain ⟨k, hk, hweak⟩ := hfreed.release.weaker l' hl'
            exact hweak.trx_eq.trans (hreq k hk (hweak.id_eq.symm.trans hid')))
          (fun l' hl' hlw htrx' => by
            obtain ⟨k, hk, hweak⟩ := hfreed.release.weaker l' hl'
            exact hweak.id_eq.trans
              (hown k hk (hweak.wait hlw) (hweak.trx_eq.symm.trans htrx')))
          (by omega) x.cost
        refine ⟨found, s', hsome, hfreed.trans hresolved.freed, fun k hk hkt => ?_,
          hresolved.acyclic⟩
        obtain ⟨k', hk', hplace⟩ :=
          List.mem_map.mp (h.mem_places_cancel hw hk (hkt.trans_ne htrx.symm))
        obtain ⟨k₀, hk₀, hweak⟩ := hfreed.release.weaker k' hk'
        obtain rfl := eq_of_id_eq hk₀ hk (hweak.id_eq.symm.trans (congrArg Prod.fst hplace))
        exact hplace ▸ hresolved.kept k' hk' (hweak.trx_eq.trans hkt)
      next =>
        exact ⟨true, s, rfl, .refl h, hkept, fun hfalse => absurd hfalse Bool.noConfusion⟩

end LockSys

end MySQL.Innobase
