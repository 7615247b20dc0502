import MySQL.Mdl.Sections

/-!
# Granted tickets exclude each other

The steps of the system, put together from the sections, keep the invariant; so in every
reachable state the granted tickets of different contexts are compatible.
-/

namespace MySQL.Mdl

open List

namespace State

variable {s s' : State} {c : ContextId} {i : LockId} {k : MdlTicket} {ref : TicketRef}
  {req : MdlRequest} {d : MdlDuration} {type : MdlType} {savepoint : MdlSavepoint}

/-! ## Trying to acquire a lock -/

theorem serves_iff : s.serves req ref = true ↔
    ∃ k, s.ticket? ref = some k ∧ (s.lock ref.lock).key = req.key ∧
      hasStrongerOrEqualType (s.lock ref.lock).kind k.type req.type = true := by
  unfold serves
  split
  next k hk => simp [hk]
  next hk => simp [hk]

theorem findTicket_eq_some (h : s.findTicket c req = some (ref, d)) :
    ref ∈ s.tickets c d ∧ s.serves req ref = true := by
  obtain ⟨d', -, hd'⟩ := List.exists_of_findSome?_eq_some h
  obtain ⟨r, hr, heq⟩ := Option.map_eq_some_iff.mp hd'
  cases heq
  exact ⟨List.mem_of_find?_eq_some hr, List.find?_some hr⟩

/-- The possible outcomes of `try_acquire_lock_impl`. -/
inductive Tried (s : State) (c : ContextId) (req : MdlRequest) : Outcome → Prop where
  | outOfMemory (m : MdlMap) (hm : m.Sound) (hf : s.map.Frame m) :
      Tried s c req (.outOfMemory { s with map := m })
  | reused (ref : TicketRef) (href : ref ∈ s.tickets c req.duration)
      (hserves : s.serves req ref = true) : Tried s c req (.acquired ref s)
  | cloned (ref : TicketRef) (href : s.Owned c ref) (hserves : s.serves req ref = true) :
      Tried s c req (.acquired ⟨s.nextTicket, ref.lock⟩
        (s.grantNew c req.duration ref.lock req.type))
  | granted (i : LockId) (m : MdlMap) (hm : m.Sound) (hf : s.map.Frame m)
      (hi : m.Holds i req.key) (hcan : (m.heap i).canGrantLock req.type c false = true) :
      Tried s c req (.acquired ⟨s.nextTicket, i⟩
        ({ s with map := m }.grantNew c req.duration i req.type))
  | conflict (i : LockId) (m : MdlMap) (hm : m.Sound) (hf : s.map.Frame m)
      (hi : m.Holds i req.key) (hcan : (m.heap i).canGrantLock req.type c false = false) :
      Tried s c req (.conflict i { s with map := m })

theorem tryAcquireLockImpl_tried (h : s.map.Sound) (c : ContextId) (req : MdlRequest)
    (oom : OutOfMemory) : Tried s c req (s.tryAcquireLockImpl c req oom) := by
  unfold tryAcquireLockImpl
  split
  next ref d hfind =>
    obtain ⟨href, hserves⟩ := findTicket_eq_some hfind
    split
    next => exact .cloned ref (owned_iff.mpr ⟨d, href⟩) hserves
    next hd =>
      have hd' : d = req.duration := by
        by_contra hne
        exact hd (by simp [hne])
      exact .reused ref (hd' ▸ href) hserves
  next =>
    obtain ⟨hm, hf, hres⟩ := MdlMap.findOrInsert_spec h req.key oom
    split
    next m heq =>
      rw [heq] at hm hf
      exact .outOfMemory m hm hf
    next i m heq =>
      rw [heq] at hm hf hres
      split
      next hcan => exact .granted i m hm hf (hres i rfl) hcan
      next hcan => exact .conflict i m hm hf (hres i rfl) (by simpa using hcan)

theorem Inv.not_blocked_of_stronger (h : s.Inv) (hk : k ∈ (s.lock i).granted.list)
    (hctx : k.ctx = c) (hstrong : hasStrongerOrEqualType (s.lock i).kind k.type type = true) :
    ¬ (s.lock i).Blocked type c := by
  rintro ⟨j, hj, hne, hinc⟩
  exact (h.lock i).compatible k hk j hj (hctx ▸ hne.symm)
    (incompatible_of_stronger hstrong hinc)

theorem Inv.cloneTicket (h : s.Inv) (hc : s.place c = .idle) (href : s.Owned c ref)
    (hk : s.ticket? ref = some k)
    (hstrong : hasStrongerOrEqualType (s.lock ref.lock).kind k.type type = true) (d : MdlDuration) :
    (s.grantNew c d ref.lock type).Inv := by
  obtain ⟨hmem, -, hctx⟩ := h.ticket?_owned href hk
  exact h.grantNew hc (h.findable (mem_append_left _ hmem))
    (h.not_blocked_of_stronger hmem hctx hstrong) d

theorem Tried.place {o : Outcome} (ho : Tried s c req o) : o.state.place = s.place := by
  cases ho <;> rfl

theorem Tried.inv {o : Outcome} (ho : Tried s c req o) (h : s.Inv) (hc : s.place c = .idle) :
    o.state.Inv := by
  cases ho with
  | outOfMemory m hm hf => exact h.withMap hm hf
  | reused ref href hserves => exact h
  | cloned ref href hserves =>
    obtain ⟨k, hk, -, hstrong⟩ := serves_iff.mp hserves
    exact h.cloneTicket hc href hk hstrong _
  | granted i m hm hf hi hcan =>
    exact (h.withMap hm hf).grantNew hc hi.findable
      ((MdlLock.canGrantLock_iff _ _ _ _).mp hcan).2 _
  | conflict i m hm hf hi hcan => exact h.withMap hm hf

/-! ## Upgrading -/

section Upgrade

variable {t : TicketRef}

section

variable (h : s.Inv) (ht : s.Owned c t)

include h ht

theorem Inv.eq_lock {m : MdlMap} (hm : m.Sound) (hf : s.map.Frame m)
    (hi : m.Holds i (s.lock t.lock).key) : i = t.lock := by
  obtain ⟨j, hj, -⟩ := h.mem_tickets ht
  have hne : (s.map.heap t.lock).isEmpty = false := MdlMap.isEmpty_eq_false hj
  have hholds := hm.holds_of_nonempty (by rw [hf.isEmpty]; exact hne)
  rw [hf.key _ hne] at hholds
  exact hi.unique hm hholds

theorem Inv.eq_lock_of_serves (href : s.Owned c ref)
    (hkey : (s.lock ref.lock).key = (s.lock t.lock).key) : ref.lock = t.lock :=
  h.eq_lock ht h.sound (.refl _) (hkey ▸ h.holds href)

theorem Inv.ne_next (i : LockId) : (⟨s.nextTicket, i⟩ : TicketRef) ≠ t := by
  rintro rfl
  exact h.not_owned_next i ht

theorem Tried.merging (hk : s.ticket? t = some k) (hne : k.type ≠ .exclusive)
    (ho : Tried s c ⟨(s.lock t.lock).key, .exclusive, .transaction⟩ (.acquired ref s')) :
    (s'.setPlace c (.merging t savepoint ref)).PlaceOk c := by
  simp only [PlaceOk, State.setPlace, Function.update_self]
  cases ho with
  | reused _ href hserves =>
    obtain ⟨x, hx, hkey, hstrong⟩ := serves_iff.mp hserves
    obtain ⟨hmem, hid, hctx⟩ := h.ticket?_owned (owned_iff.mpr ⟨_, href⟩) hx
    have htype := eq_exclusive_of_stronger hstrong
    refine ⟨ht, href, h.eq_lock_of_serves ht (owned_iff.mpr ⟨_, href⟩) hkey, ?_, ?_⟩
    · rintro rfl
      rw [hk] at hx
      cases hx
      exact hne htype
    · cases x
      subst hid hctx htype
      exact hmem
  | cloned r href hserves =>
    obtain ⟨x, hx, hkey, -⟩ := serves_iff.mp hserves
    have hlock : r.lock = t.lock := h.eq_lock_of_serves ht href hkey
    exact ⟨owned_grantNew.mpr (.inr ht), mem_tickets_grantNew s c .transaction _ _, hlock,
      h.ne_next ht _, mem_granted_grantNew s c .transaction _ _⟩
  | granted i m hm hf hi hcan =>
    exact ⟨owned_grantNew.mpr (.inr ht), mem_tickets_grantNew _ c .transaction _ _,
      h.eq_lock ht hm hf hi, h.ne_next ht _, mem_granted_grantNew _ c .transaction _ _⟩

end

end Upgrade

/-! ## The steps -/

theorem Inv.acquireLock (h : s.Inv) (hc : s.place c = .idle) (oom : OutOfMemory) {caller : Caller}
    (hmerge : ∀ t savepoint, caller = .upgrade t savepoint → s.Owned c t ∧
      req = ⟨(s.lock t.lock).key, .exclusive, .transaction⟩ ∧
      ∃ k, s.ticket? t = some k ∧ k.type ≠ .exclusive) : (s.acquireLock c req oom caller).Inv := by
  have htried := tryAcquireLockImpl_tried h.sound c req oom
  have hinv := htried.inv h hc
  have hidle : (s.tryAcquireLockImpl c req oom).state.place c = .idle := by
    rw [htried.place, hc]
  unfold State.acquireLock
  split
  next s' heq =>
    rw [heq] at hinv
    exact hinv
  next ref s' heq =>
    rw [heq] at hinv htried hidle
    have hnone : ∀ i, ∀ k ∈ (s'.lock i).waiting.list, k.ctx ≠ c := fun i k hk =>
      hinv.not_waiting hidle hk
    cases caller with
    | statement => exact hinv.setPlace hnone (by simp [PlaceOk, State.setPlace])
    | upgrade t savepoint =>
      obtain ⟨ht, rfl, k, hk, hne⟩ := hmerge t savepoint rfl
      exact hinv.setPlace hnone (htried.merging h ht hk hne)
  next i s' heq =>
    rw [heq] at htried
    cases htried with
    | conflict _ m hm hf hi _ =>
      refine (h.withMap hm hf).enqueueNew hc hi.findable ?_
      rintro t savepoint rfl
      obtain ⟨ht, rfl, -⟩ := hmerge t savepoint rfl
      exact ⟨ht, h.eq_lock ht hm hf hi, rfl, rfl⟩

theorem Inv.tryAcquireLock (h : s.Inv) (hc : s.place c = .idle) (req : MdlRequest)
    (oom : OutOfMemory) : (s.tryAcquireLock c req oom).Inv :=
  (tryAcquireLockImpl_tried h.sound c req oom).inv h hc

theorem Inv.upgrade (h : s.Inv) (hc : s.place c = .idle) (href : s.Owned c ref) (oom : OutOfMemory)
    (hs : s.upgradeSharedLockToExclusive c ref oom = some s') : s'.Inv := by
  obtain ⟨k, hk, hs⟩ := Option.bind_eq_some_iff.mp hs
  split at hs
  next => exact Option.some.inj hs ▸ h
  next hne =>
    cases hs
    refine h.acquireLock hc oom ?_
    rintro t savepoint ⟨⟩
    exact ⟨href, rfl, k, hk, hne⟩

theorem Inv.releaseLock (h : s.Inv) (cfg : Config) (hc : s.place c = .idle)
    (href : ref ∈ s.tickets c d) (hs : s.releaseLock cfg c d ref = some s') : s'.Inv := by
  obtain ⟨k, hk, hs⟩ := Option.bind_eq_some_iff.mp hs
  cases hs
  obtain ⟨hmem, -, -⟩ := h.ticket?_owned (owned_iff.mpr ⟨d, href⟩) hk
  exact (h.dropGranted hc href hk).ticketRemoved cfg (h.findable (mem_append_left _ hmem))

theorem Inv.not_blocked_of_exclusive (h : s.Inv) (hk : k ∈ (s.lock i).granted.list)
    (hctx : k.ctx = c) (hx : k.type = .exclusive) (type : MdlType) :
    ¬ (s.lock i).Blocked type c := by
  rintro ⟨j, hj, hne, hinc⟩
  refine (h.lock i).compatible k hk j hj (hctx ▸ hne.symm) ?_
  rw [hx]
  exact incompatible_exclusive hinc

theorem Inv.downgrade (h : s.Inv) (cfg : Config) (hc : s.place c = .idle) (href : s.Owned c ref)
    (hs : s.downgradeExclusiveLock cfg ref type = some s') : s'.Inv := by
  obtain ⟨k, hk, hs⟩ := Option.bind_eq_some_iff.mp hs
  obtain ⟨hmem, -, hctx⟩ := h.ticket?_owned href hk
  split at hs
  next => exact Option.some.inj hs ▸ h
  next hx =>
    cases hs
    have hfree := h.not_blocked_of_exclusive hmem hctx (not_not.mp hx) type
    exact (h.retype hc hmem hctx hfree).rescheduleWaiters cfg ref.lock

theorem Inv.merge (h : s.Inv) {t x : TicketRef} (hp : s.place c = .merging t savepoint x)
    (hs : s.mergeTickets c t savepoint x = some s') : s'.Inv := by
  obtain ⟨k, hk, hs⟩ := Option.bind_eq_some_iff.mp hs
  have hplace := (h.context c).place
  simp only [PlaceOk, hp] at hplace
  obtain ⟨ht, hx, hlock, hne, hxg⟩ := hplace
  have hidle : (s.setPlace c .idle).Inv := by
    refine h.setPlace ?_ (by simp [PlaceOk, State.setPlace])
    intro i j hj hctx
    obtain ⟨⟨req, caller, hw⟩, -⟩ := (h.context c).waiter i j hj hctx
    rw [hp] at hw
    cases hw
  have hc : (s.setPlace c .idle).place c = .idle := by simp [State.setPlace]
  obtain ⟨hmem, hid, hctx⟩ := h.ticket?_owned ht hk
  rw [hlock] at hxg
  have hfree : ¬ (s.lock t.lock).Blocked .exclusive c :=
    h.not_blocked_of_exclusive hxg rfl rfl .exclusive
  split at hs
  next =>
    cases hs
    exact hidle.retype hc hmem hctx hfree
  next =>
    obtain ⟨y, hy, hs⟩ := Option.bind_eq_some_iff.mp hs
    cases hs
    have hdrop := hidle.dropGranted hc hx hy
    obtain ⟨-, hyid, -⟩ := h.ticket?_owned (owned_iff.mpr ⟨_, hx⟩) hy
    have hlock' : ((s.setPlace c .idle).dropGranted c .transaction x x.lock y).lock x.lock =
        { s.lock x.lock with granted := (s.lock x.lock).granted.removeTicket y } :=
      lock_setLock_self _ _ _
    have hky : k ≠ y := by
      rintro rfl
      exact hne (by cases x; cases t; simp_all)
    rw [← hlock] at hmem hfree ⊢
    refine hdrop.retype hc ?_ hctx ?_
    · rw [hlock']
      simp [hmem, hky]
    · rintro ⟨j, hj, hjc, hinc⟩
      rw [hlock'] at hj hinc
      exact hfree ⟨j, (mem_filter.mp hj).1, hjc, hinc⟩

theorem ticketRemoved_setPlace (s : State) (cfg : Config) (i : LockId) (c : ContextId) (p : Place) :
    (s.ticketRemoved cfg i).setPlace c p = (s.setPlace c p).ticketRemoved cfg i := by
  unfold State.ticketRemoved
  rw [lock_setPlace]
  split <;> rfl

theorem Inv.finishWait (h : s.Inv) (cfg : Config) {s' : State}
    (hs : s.finishWait cfg c = some s') : s'.Inv := by
  unfold State.finishWait at hs
  split at hs
  next req ref caller hp =>
    split at hs
    next => cases hs
    next hslot =>
      cases hs
      exact h.wakeUp hp hslot
    next hslot =>
      cases hs
      unfold State.abortWait
      rw [ticketRemoved_setPlace]
      exact (h.dropWaiting hp hslot).ticketRemoved cfg
        (h.findable (mem_append_right _ (h.mem_waiting hp hslot)))
  next => cases hs

end State

open State

theorem inv_init : State.init.Inv where
  sound := .init
  lock i := ⟨by simp [MdlLock.Compatible, State.lock, State.init, MdlMap.init, MdlLock.create],
    by simp [MdlLock.tickets, State.lock, State.init, MdlMap.init, MdlLock.create],
    by simp [MdlLock.tickets, State.lock, State.init, MdlMap.init, MdlLock.create]⟩
  context c := ⟨by simp [State.Owned, State.init], by simp [State.allTickets, State.init],
    by simp [State.PlaceOk, State.init],
    by simp [State.lock, State.init, MdlMap.init, MdlLock.create]⟩

theorem step_inv {cfg : Config} {s s' : State} {a : Act} (h : s.Inv)
    (hs : step cfg s a = some s') : s'.Inv :=
  step_cases hs
    (fun _ req oom hc => h.tryAcquireLock hc req oom)
    (fun _ _ oom hc => h.acquireLock hc oom (by simp))
    (fun _ _ _ d _ hc href hk hstrong => h.cloneTicket hc href hk hstrong d)
    (fun _ _ oom hc href hs => h.upgrade hc href oom hs)
    (fun _ _ _ _ hp hs => h.merge hp hs)
    (fun _ _ _ hc href hs => h.downgrade cfg hc href hs)
    (fun _ _ _ hc href hs => h.releaseLock cfg hc href hs)
    (fun c _ _ hstatus => h.setStatus hstatus c)
    (fun _ hs => h.finishWait cfg hs)

theorem inv_of_reachable {cfg : Config} {s : State} (h : (mdl cfg).Reachable s) : s.Inv := by
  refine h.invariant (P := State.Inv) ?_ fun _ _ _ _ hs hstep => step_inv hs hstep
  rintro _ rfl
  exact inv_init

/-- In every reachable state the granted tickets of a lock that belong to different
contexts have types that do not exclude each other. -/
theorem granted_compatible (cfg : Config) {s : State} (h : (mdl cfg).Reachable s) (i : LockId)
    {j k : MdlTicket} (hj : j ∈ (s.lock i).granted.list) (hk : k ∈ (s.lock i).granted.list)
    (hne : j.ctx ≠ k.ctx) : ¬ (incompatibleGrantedTypesBitmap (s.lock i).kind j.type).Has k.type :=
  ((inv_of_reachable h).lock i).compatible j hj k hk hne

def twoReaders : List Act :=
  [.tryAcquireLock 0 ⟨⟨.table, "test", "t"⟩, .sharedRead, .transaction⟩ ⟨false, false⟩,
    .acquireLock 1 ⟨⟨.table, "test", "t"⟩, .sharedRead, .statement⟩ ⟨false, false⟩]

theorem granted_compatible_twoReaders :
    ∃ s : State, (mdl ⟨1, 1024⟩).Reachable s ∧
      ⟨0, 0, .sharedRead⟩ ∈ (s.lock 2).granted.list ∧
      ⟨1, 1, .sharedRead⟩ ∈ (s.lock 2).granted.list ∧
      ¬ (incompatibleGrantedTypesBitmap (s.lock 2).kind .sharedRead).Has .sharedRead := by
  obtain ⟨s, hs, hp⟩ := (Lib.System.Reachable.start (S := mdl ⟨1, 1024⟩) rfl).exists_of_run
    twoReaders (fun s => ⟨0, 0, .sharedRead⟩ ∈ (s.lock 2).granted.list ∧
      ⟨1, 1, .sharedRead⟩ ∈ (s.lock 2).granted.list) (by decide)
  obtain ⟨hj, hk⟩ := of_decide_eq_true hp
  exact ⟨s, hs, hj, hk, granted_compatible ⟨1, 1024⟩ hs 2 hj hk (by decide)⟩

/-! ## Queues and bitmaps -/

def typeBits (l : List MdlTicket) : Bitmap := l.foldr (fun k b => mdlBit k.type ||| b) 0#8

theorem has_typeBits (l : List MdlTicket) (t : MdlType) :
    (typeBits l).Has t ↔ ∃ k ∈ l, k.type = t := by
  induction l with
  | nil => simp [typeBits]
  | cons k l ih =>
    rw [typeBits, foldr_cons, Bitmap.has_or, Bitmap.has_mdlBit]
    rw [typeBits] at ih
    rw [ih, exists_mem_cons_iff]

theorem Bitmap.eq_of_has (b c : Bitmap) (h : ∀ t, b.Has t ↔ c.Has t) : b = c := by
  have hzero (d e : Bitmap) (h : ∀ t, d.Has t → e.Has t) : d &&& ~~~e = 0#8 := by
    rw [Bitmap.and_eq_zero_iff]
    intro t hd he
    exact (Bitmap.has_not e t).1 he (h t hd)
  have hbc := hzero b c fun t => (h t).1
  have hcb := hzero c b fun t => (h t).2
  apply BitVec.eq_of_getLsbD_eq
  intro j hj
  have hb := congrArg (BitVec.getLsbD · j) hbc
  have hc := congrArg (BitVec.getLsbD · j) hcb
  simp only [BitVec.getLsbD_and, BitVec.getLsbD_not, hj, decide_true, Bool.true_and,
    BitVec.getLsbD_zero] at hb hc
  cases hbj : b.getLsbD j <;> cases hcj : c.getLsbD j <;> simp_all

theorem TicketList.bitmap_eq (l : TicketList) : l.bitmap = typeBits l.list :=
  Bitmap.eq_of_has _ _ fun t => (l.has_bitmap t).trans (has_typeBits l.list t).symm

namespace State

def HasTicket (s : State) (c : ContextId) (ref : TicketRef) : Prop :=
  s.Owned c ref ∨ ∃ req caller, s.place c = .waiting req ref caller

def InQueue (l : TicketList) (c : ContextId) (ticket : TicketId) : Prop :=
  ∃ k ∈ l.list, k.id = ticket ∧ k.ctx = c

theorem Inv.inQueue {s : State} (h : s.Inv) {c : ContextId} {ref : TicketRef}
    (href : s.HasTicket c ref) :
    InQueue (s.lock ref.lock).granted c ref.ticket ∨
      InQueue (s.lock ref.lock).waiting c ref.ticket := by
  rcases href with href | ⟨req, caller, hplace⟩
  · exact Or.inl ((h.context c).owned ref href)
  · have hp := (h.context c).place
    simp only [PlaceOk, hplace] at hp
    obtain ⟨hmem, -, -⟩ := hp
    split at hmem
    next => exact Or.inl ⟨_, hmem, rfl, rfl⟩
    next => exact Or.inr ⟨_, hmem, rfl, rfl⟩

theorem Inv.not_inQueue_both {s : State} (h : s.Inv) {c : ContextId} {i : LockId}
    {ticket : TicketId}
    (hgranted : InQueue (s.lock i).granted c ticket) : ¬ InQueue (s.lock i).waiting c ticket := by
  rintro ⟨k, hk, hkid, -⟩
  obtain ⟨j, hj, hjid, -⟩ := hgranted
  have hids := (h.lock i).ids
  rw [MdlLock.tickets, map_append, nodup_append] at hids
  exact hids.2.2 _ (List.mem_map_of_mem hj) _ (List.mem_map_of_mem hk) (hjid.trans hkid.symm)

end State

/-- In every reachable state the bitmaps of a lock are the unions of the type bits of its queues, no
ticket is in them twice, and each ticket of a context is in exactly one of the two queues of its
lock. -/
theorem queues_consistent (cfg : Config) {s : State} (h : (mdl cfg).Reachable s) :
    (∀ i, (s.lock i).granted.bitmap = typeBits (s.lock i).granted.list ∧
      (s.lock i).waiting.bitmap = typeBits (s.lock i).waiting.list ∧
      (((s.lock i).granted.list ++ (s.lock i).waiting.list).map (·.id)).Nodup) ∧
    ∀ c ref, s.HasTicket c ref →
      Xor (State.InQueue (s.lock ref.lock).granted c ref.ticket)
        (State.InQueue (s.lock ref.lock).waiting c ref.ticket) := by
  have hinv := inv_of_reachable h
  refine ⟨fun i => ⟨TicketList.bitmap_eq _, TicketList.bitmap_eq _, (hinv.lock i).ids⟩, ?_⟩
  intro c ref href
  rcases hinv.inQueue href with hgranted | hwaiting
  · exact Or.inl ⟨hgranted, hinv.not_inQueue_both hgranted⟩
  · exact Or.inr ⟨hwaiting, fun hgranted => hinv.not_inQueue_both hgranted hwaiting⟩

theorem queues_consistent_twoReaders :
    ∃ s : State, (mdl ⟨1, 1024⟩).Reachable s ∧ s.HasTicket 1 ⟨1, 2⟩ ∧
      Xor (State.InQueue (s.lock 2).granted 1 1) (State.InQueue (s.lock 2).waiting 1 1) := by
  obtain ⟨s, hs, hp⟩ := (Lib.System.Reachable.start (S := mdl ⟨1, 1024⟩) rfl).exists_of_run
    twoReaders (fun s => s.Owned 1 ⟨1, 2⟩) (by decide)
  have howned : s.HasTicket 1 ⟨1, 2⟩ := Or.inl (of_decide_eq_true hp)
  exact ⟨s, hs, howned, (queues_consistent ⟨1, 1024⟩ hs).2 1 ⟨1, 2⟩ howned⟩

end MySQL.Mdl
