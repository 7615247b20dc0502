import MySQL.Mdl.Exclusion

/-!
# Which waiting requests may be asleep

A request that waits with an empty slot could not be granted when it was queued or last
looked at, and no section that skips the pass over the queue makes it grantable.  The one
exception is intended by the source: a pass that gives way to weak requests does not look
at the strong ones.
-/

namespace MySQL.Mdl

open List

namespace MdlLock

def MaySleep (l : MdlLock) (k : MdlTicket) : Prop :=
  l.Ungrantable k ∨ (l.gaveWay = true ∧ l.isHog k.type = true)

variable {l l' : MdlLock} {k : MdlTicket}

theorem MaySleep.mono (h : l.MaySleep k) (hkind : l'.kind = l.kind)
    (hway : l'.gaveWay = l.gaveWay) (hb : l.Blocked k.type k.ctx → l'.Blocked k.type k.ctx)
    (ho : l.Outranked k.type → l'.Outranked k.type) : l'.MaySleep k := by
  rcases h with (h | h) | ⟨hw, hhog⟩
  · exact .inl (.inl (hb h))
  · exact .inl (.inr (ho h))
  · exact .inr ⟨hway.trans hw, by simpa [isHog, hkind] using hhog⟩

theorem MaySleep.of_subset (h : l.MaySleep k) (hkind : l'.kind = l.kind)
    (hway : l'.gaveWay = l.gaveWay) (hg : ∀ j ∈ l.granted.list, j ∈ l'.granted.list)
    (hw : ∀ j ∈ l.waiting.list, j ∈ l'.waiting.list) : l'.MaySleep k := by
  refine h.mono hkind hway ?_ ?_
  · rintro ⟨j, hj, hne, hinc⟩
    exact ⟨j, hg j hj, hne, hkind ▸ hinc⟩
  · rintro ⟨j, hj, hhas⟩
    exact ⟨j, hw j hj, hkind ▸ hhas⟩

theorem rescheduleWaiters_maySleep {w : Slots} (maxWriteLockCount : BitVec 64)
    (hnodup : (l.waiting.list.map (·.ctx)).Nodup)
    (hk : k ∈ (l.rescheduleWaiters maxWriteLockCount w).1.waiting.list)
    (hempty : (l.rescheduleWaiters maxWriteLockCount w).2 k.ctx = .empty) :
    (l.rescheduleWaiters maxWriteLockCount w).1.MaySleep k := by
  have hleft := rescheduleWaiters_leftBehind maxWriteLockCount hnodup hk hempty
  unfold LeftBehind at hleft
  split at hleft
  next hway =>
    rcases hleft with hhog | hb
    · exact .inr ⟨hway, hhog⟩
    · exact .inl (.inl hb)
  next => exact .inl hleft

end MdlLock

namespace State

variable {s s' : State} {c : ContextId} {i : LockId}

def AwakeAt (s : State) (i : LockId) : Prop :=
  ∀ k ∈ (s.lock i).waiting.list, s.slots k.ctx = .empty → (s.lock i).MaySleep k

def Awake (s : State) : Prop := ∀ i, s.AwakeAt i

theorem AwakeAt.of_eq (h : s.AwakeAt i) (hlock : s'.lock i = s.lock i)
    (hslots : ∀ c, s'.slots c = .empty → s.slots c = .empty) : s'.AwakeAt i := by
  intro k hk hempty
  rw [hlock] at hk ⊢
  exact h k hk (hslots _ hempty)

theorem Awake.withMap (h : s.Awake) {m : MdlMap} (hf : s.map.Frame m) :
    { s with map := m }.Awake := by
  intro i k hk hempty
  have hk' : k ∈ (s.lock i).waiting.list := hf.waiting i ▸ hk
  have hne : (s.map.heap i).isEmpty = false := by
    rw [← Bool.not_eq_true, MdlMap.isEmpty_iff]
    rintro ⟨-, hw⟩
    rw [State.lock, hw] at hk'
    cases hk'
  exact (h i k hk' hempty).of_subset (hf.kind i hne) (hf.gaveWay i hne)
    (fun j hj => (hf.granted i).symm ▸ hj) (fun j hj => (hf.waiting i).symm ▸ hj)

theorem Awake.setLock (h : s.Awake) {l : MdlLock} (hmap : s'.map.heap = (s.map.setLock i l).heap)
    (hslots : ∀ c, s'.slots c = .empty → s.slots c = .empty)
    (hl : ∀ k ∈ l.waiting.list, s'.slots k.ctx = .empty → l.MaySleep k) : s'.Awake := by
  intro j
  by_cases hj : j = i
  · subst hj
    intro k hk hempty
    have hlock : s'.lock j = l := by rw [lock, hmap, MdlMap.heap_setLock_self]
    rw [hlock] at hk ⊢
    exact hl k hk hempty
  · have hlock : s'.lock j = s.lock j := by rw [lock, hmap, MdlMap.heap_setLock_of_ne hj]; rfl
    exact (h j).of_eq hlock hslots

theorem Awake.grantNew (h : s.Awake) (c : ContextId) (d : MdlDuration) (i : LockId)
    (type : MdlType) : (s.grantNew c d i type).Awake :=
  h.setLock rfl (fun _ hc => hc) fun k hk hempty =>
    (h i k hk hempty).of_subset rfl rfl (fun _ hj => mem_append_left _ hj) fun _ hj => hj

theorem Awake.enqueueNew (h : s.Awake) (hinv : s.Inv) (hc : s.place c = .idle)
    {req : MdlRequest} (caller : Caller) (hcan : (s.lock i).canGrantLock req.type c false = false) :
    (s.enqueueNew c req i caller).Awake := by
  have hslot : ∀ c', c' ≠ c → (s.enqueueNew c req i caller).slots c' = s.slots c' := by
    intro c' hc'
    simp [State.enqueueNew, setPlace, hc']
  intro j k hk hempty
  by_cases hj : j = i
  · subst hj
    have hlock : (s.enqueueNew c req j caller).lock j =
        (s.lock j).enqueue ⟨s.nextTicket, c, req.type⟩ := lock_setLock_self s j _
    rw [hlock] at hk ⊢
    have hmore : (s.lock j).MaySleep k →
        ((s.lock j).enqueue ⟨s.nextTicket, c, req.type⟩).MaySleep k :=
      fun hs => hs.of_subset rfl rfl (fun _ hj => hj) fun _ hj => mem_append_left _ hj
    refine hmore ?_
    rcases mem_append.mp hk with hk | hk
    · exact h j k hk (hslot _ (hinv.not_waiting hc hk) ▸ hempty)
    · obtain rfl := mem_singleton.mp hk
      exact .inl (((s.lock j).ungrantable_iff _).mpr hcan)
  · have hlock : (s.enqueueNew c req i caller).lock j = s.lock j := lock_setLock_of_ne hj s _
    rw [hlock] at hk ⊢
    exact h j k hk (hslot _ (hinv.not_waiting hc hk) ▸ hempty)

theorem Inv.awake_rescheduleWaiters (hinv : s.Inv) (cfg : Config)
    (h : ∀ j, j ≠ i → s.AwakeAt j) : (s.rescheduleWaiters cfg i).Awake := by
  intro j
  by_cases hj : j = i
  · subst hj
    have hlock : (s.rescheduleWaiters cfg j).lock j =
        ((s.lock j).rescheduleWaiters cfg.maxWriteLockCount s.slots).1 := lock_setLock_self s j _
    intro k hk hempty
    rw [hlock] at hk ⊢
    exact MdlLock.rescheduleWaiters_maySleep _ (hinv.waiting_nodup j) hk hempty
  · refine (h j hj).of_eq (lock_rescheduleWaiters_of_ne hj s cfg) ?_
    intro c hc
    by_contra hne
    rw [(hinv.pass cfg i).slot_of_ne_empty hne] at hc
    exact hne hc

theorem Inv.awake_ticketRemoved (hinv : s.Inv) (cfg : Config) (hi : i ∈ s.map.locks ∨ i < 2)
    (h : ∀ j, j ≠ i → s.AwakeAt j) : (s.ticketRemoved cfg i).Awake := by
  unfold State.ticketRemoved
  split
  next hempty =>
    obtain ⟨-, hf⟩ := MdlMap.removeLock_spec cfg.mdlLocksCacheSize hinv.sound hempty hi
    have hall : s.Awake := by
      intro j
      by_cases hj : j = i
      · subst hj
        intro k hk
        rw [(MdlMap.isEmpty_iff.mp hempty).2] at hk
        cases hk
      · exact h j hj
    exact hall.withMap hf
  next => exact hinv.awake_rescheduleWaiters cfg h

theorem Awake.retype_exclusive (h : s.Awake) {k x : MdlTicket} (hx : x.ctx = k.ctx) {g : TicketList}
    (hg : ∀ j ∈ (s.lock i).granted.list, j ∈ g.list ∨ j = k ∨ j = x)
    (hk : { k with type := .exclusive } ∈ g.list)
    (hmap : s'.map.heap = (s.map.setLock i { s.lock i with granted := g }).heap)
    (hslots : s'.slots = s.slots) : s'.Awake := by
  refine h.setLock hmap (by simp [hslots]) ?_
  intro w hw hempty
  rw [hslots] at hempty
  refine (h i w hw hempty).mono rfl rfl ?_ id
  rintro ⟨j, hj, hne, hinc⟩
  rcases hg j hj with hjg | rfl | rfl
  · exact ⟨j, hjg, hne, hinc⟩
  · exact ⟨_, hk, hne, incompatible_exclusive_right hinc⟩
  · exact ⟨_, hk, hx ▸ hne, incompatible_exclusive_right hinc⟩

/-! ## The steps -/

theorem Tried.awake {o : Outcome} {req : MdlRequest} (ho : Tried s c req o) (h : s.Awake) :
    o.state.Awake := by
  cases ho with
  | outOfMemory m hm hf => exact h.withMap hf
  | reused ref href hserves => exact h
  | cloned ref href hserves => exact h.grantNew c _ _ _
  | granted i m hm hf hi hcan => exact (h.withMap hf).grantNew c _ _ _
  | conflict i m hm hf hi hcan => exact h.withMap hf

theorem Awake.acquired (h : s.Awake) (c : ContextId) (ref : TicketRef) (caller : Caller) :
    (s.acquired c ref caller).Awake := by
  cases caller <;> exact h

theorem Awake.acquireLock (h : s.Awake) (hinv : s.Inv) (hc : s.place c = .idle) (req : MdlRequest)
    (oom : OutOfMemory) (caller : Caller) : (s.acquireLock c req oom caller).Awake := by
  have htried := tryAcquireLockImpl_tried hinv.sound c req oom
  have hawake := htried.awake h
  unfold State.acquireLock
  split
  next s' heq =>
    rw [heq] at hawake
    exact hawake
  next ref s' heq =>
    rw [heq] at hawake
    exact Awake.acquired hawake c ref caller
  next i s' heq =>
    rw [heq] at htried
    cases htried with
    | conflict _ m hm hf hi hcan =>
      exact (h.withMap hf).enqueueNew (hinv.withMap hm hf) hc caller hcan

section

variable (h : s.Awake) (hinv : s.Inv) (cfg : Config)

include h hinv

theorem Awake.releaseLock (hc : s.place c = .idle) {d : MdlDuration} {ref : TicketRef}
    (href : ref ∈ s.tickets c d) (hs : s.releaseLock cfg c d ref = some s') : s'.Awake := by
  obtain ⟨k, hk, hs⟩ := Option.bind_eq_some_iff.mp hs
  cases hs
  obtain ⟨hmem, -, -⟩ := hinv.ticket?_owned (owned_iff.mpr ⟨d, href⟩) hk
  refine (hinv.dropGranted hc href hk).awake_ticketRemoved cfg
    (hinv.findable (mem_append_left _ hmem)) ?_
  intro j hj
  exact (h j).of_eq (lock_setLock_of_ne hj s _) fun _ hempty => hempty

theorem Awake.downgrade (hc : s.place c = .idle) {ref : TicketRef} (href : s.Owned c ref)
    {type : MdlType} (hs : s.downgradeExclusiveLock cfg ref type = some s') : s'.Awake := by
  obtain ⟨k, hk, hs⟩ := Option.bind_eq_some_iff.mp hs
  obtain ⟨hmem, -, hctx⟩ := hinv.ticket?_owned href hk
  split at hs
  next => exact Option.some.inj hs ▸ h
  next hx =>
    cases hs
    have hfree := hinv.not_blocked_of_exclusive hmem hctx (not_not.mp hx) type
    refine (hinv.retype hc hmem hctx hfree).awake_rescheduleWaiters cfg ?_
    intro j hj
    exact (h j).of_eq (lock_setLock_of_ne hj s _) fun _ hempty => hempty

theorem Awake.merge {t x : TicketRef} {savepoint : MdlSavepoint}
    (hp : s.place c = .merging t savepoint x) (hs : s.mergeTickets c t savepoint x = some s') :
    s'.Awake := by
  obtain ⟨k, hk, hs⟩ := Option.bind_eq_some_iff.mp hs
  have hplace := (hinv.context c).place
  simp only [PlaceOk, hp] at hplace
  obtain ⟨ht, hx, hlock, -, -⟩ := hplace
  obtain ⟨hmem, hid, hctx⟩ := hinv.ticket?_owned ht hk
  split at hs
  next =>
    cases hs
    refine h.retype_exclusive (x := k) rfl ?_ ?_ rfl rfl
    · intro j hj
      by_cases hjk : j = k
      · exact .inr (.inl hjk)
      · exact .inl (by simp [hj, hjk])
    · simp
  next =>
    obtain ⟨y, hy, hs⟩ := Option.bind_eq_some_iff.mp hs
    cases hs
    obtain ⟨-, -, hyctx⟩ := hinv.ticket?_owned (owned_iff.mpr ⟨_, hx⟩) hy
    refine h.retype_exclusive (i := t.lock)
      (g := (((s.lock t.lock).granted.removeTicket y).removeTicket k).addTicket
        { k with type := .exclusive }) (hyctx.trans hctx.symm) ?_ ?_ ?_ rfl
    · intro j hj
      by_cases hjk : j = k
      · exact .inr (.inl hjk)
      · by_cases hjy : j = y
        · exact .inr (.inr hjy)
        · exact .inl (by simp [hj, hjk, hjy])
    · simp
    · simp [State.setPlace, State.retype, State.setLock, State.dropGranted, setTickets,
        MdlMap.setLock, State.lock]

theorem Awake.finishWait (hs : s.finishWait cfg c = some s') : s'.Awake := by
  unfold State.finishWait at hs
  split at hs
  next req ref caller hp =>
    split at hs
    next => cases hs
    next hslot =>
      cases hs
      have hpush : (s.setTickets c req.duration (ref :: s.tickets c req.duration)).Awake := h
      exact Awake.acquired hpush c ref caller
    next hslot =>
      cases hs
      unfold State.abortWait
      rw [ticketRemoved_setPlace]
      refine (hinv.dropWaiting hp hslot).awake_ticketRemoved cfg
        (hinv.findable (mem_append_right _ (hinv.mem_waiting hp hslot))) ?_
      intro j hj
      exact (h j).of_eq (lock_setLock_of_ne hj s _) fun _ hempty => hempty
  next => cases hs

end

end State

open State

theorem step_awake {cfg : Config} {s s' : State} {a : Act} (hinv : s.Inv) (h : s.Awake)
    (hs : step cfg s a = some s') : s'.Awake := by
  refine step_cases hs ?_ ?_ ?_ ?_ ?_ ?_ ?_ ?_ ?_
  · intro c req oom _
    exact (tryAcquireLockImpl_tried hinv.sound c req oom).awake h
  · intro c req oom hc
    exact h.acquireLock hinv hc req oom _
  · intro c ref type d k _ _ _ _
    exact h.grantNew c d ref.lock type
  · intro c ref oom hc _ hup
    obtain ⟨k, -, hup⟩ := Option.bind_eq_some_iff.mp hup
    split at hup
    next => exact Option.some.inj hup ▸ h
    next => exact Option.some.inj hup ▸ h.acquireLock hinv hc _ oom _
  · intro c ref savepoint xlock hp hmerge
    exact h.merge hinv hp hmerge
  · intro c ref type hc href hdown
    exact h.downgrade hinv cfg hc href hdown
  · intro c d ref hc href hrel
    exact h.releaseLock hinv cfg hc href hrel
  · intro c status hne _
    unfold State.setStatus
    split
    next hempty =>
      intro i
      refine (h i).of_eq rfl ?_
      intro c' hc'
      by_cases hcc : c' = c
      · exact hcc ▸ hempty
      · simpa [hcc] using hc'
    next => exact h
  · intro c hfin
    exact h.finishWait hinv cfg hfin

theorem awake_of_reachable {cfg : Config} {s : State} (h : (mdl cfg).Reachable s) : s.Awake := by
  refine h.invariant ?_
    fun _ _ _ hr hs hstep => step_awake (inv_of_reachable hr) hs hstep
  rintro _ rfl i k hk
  simp [State.lock, State.init, MdlMap.init, MdlLock.create] at hk

/-- In every reachable state a request that waits with an empty slot cannot be granted,
unless its type is one of the strong ones and the last pass over the queue of its lock
gave way to the weak ones. -/
theorem waiting_not_grantable (cfg : Config) {s : State} (h : (mdl cfg).Reachable s) (i : LockId)
    {k : MdlTicket} (hk : k ∈ (s.lock i).waiting.list) (hempty : s.slots k.ctx = .empty)
    (hlooked : (s.lock i).gaveWay = false ∨ (s.lock i).isHog k.type = false) :
    (s.lock i).canGrantLock k.type k.ctx false = false := by
  rcases awake_of_reachable h i k hk hempty with hu | ⟨hway, hhog⟩
  · exact ((s.lock i).ungrantable_iff k).mp hu
  · simp [hway, hhog] at hlooked

def readerAfterWriter : List Act :=
  [.acquireLock 0 ⟨⟨.table, "test", "t"⟩, .exclusive, .transaction⟩ ⟨false, false⟩,
    .acquireLock 1 ⟨⟨.table, "test", "t"⟩, .sharedRead, .transaction⟩ ⟨false, false⟩]

theorem waiting_not_grantable_readerAfterWriter :
    ∃ s : State, (mdl ⟨1, 1024⟩).Reachable s ∧
      ⟨1, 1, .sharedRead⟩ ∈ (s.lock 2).waiting.list ∧ s.slots 1 = .empty ∧
      (s.lock 2).canGrantLock .sharedRead 1 false = false := by
  obtain ⟨s, hs, hp⟩ := (Lib.System.Reachable.start (S := mdl ⟨1, 1024⟩) rfl).exists_of_run
    readerAfterWriter (fun s => ⟨1, 1, .sharedRead⟩ ∈ (s.lock 2).waiting.list ∧
      s.slots 1 = .empty ∧ (s.lock 2).gaveWay = false) (by decide)
  obtain ⟨hk, hempty, hway⟩ := of_decide_eq_true hp
  exact ⟨s, hs, hk, hempty, waiting_not_grantable ⟨1, 1024⟩ hs 2 hk hempty (.inl hway)⟩

/-- With `max_write_lock_count` set to 1: connection 2 is granted its exclusive lock while a
high-priority reader waits; when it releases the lock, the pass grants only the reader and
skips the `SHARED_NO_WRITE` request of connection 0, which the reader does not exclude. -/
def skippedRequest : List Act :=
  [.acquireLock 3 ⟨⟨.table, "test", "t"⟩, .exclusive, .transaction⟩ ⟨false, false⟩,
    .acquireLock 2 ⟨⟨.table, "test", "t"⟩, .exclusive, .transaction⟩ ⟨false, false⟩,
    .acquireLock 1 ⟨⟨.table, "test", "t"⟩, .sharedHighPrio, .transaction⟩ ⟨false, false⟩,
    .releaseLock 3 .transaction ⟨0, 2⟩,
    .acquireLock 0 ⟨⟨.table, "test", "t"⟩, .sharedNoWrite, .transaction⟩ ⟨false, false⟩,
    .finishWait 2,
    .releaseLock 2 .transaction ⟨1, 2⟩]

theorem exists_waiting_grantable :
    ∃ s : State, (mdl ⟨1, 1024⟩).Reachable s ∧
      ⟨3, 0, .sharedNoWrite⟩ ∈ (s.lock 2).waiting.list ∧ s.slots 0 = .empty ∧
      (s.lock 2).canGrantLock .sharedNoWrite 0 false = true := by
  obtain ⟨s, hs, hp⟩ := (Lib.System.Reachable.start (S := mdl ⟨1, 1024⟩) rfl).exists_of_run
    skippedRequest (fun s => ⟨3, 0, .sharedNoWrite⟩ ∈ (s.lock 2).waiting.list ∧
      s.slots 0 = .empty ∧ (s.lock 2).canGrantLock .sharedNoWrite 0 false = true) (by decide)
  exact ⟨s, hs, of_decide_eq_true hp⟩

end MySQL.Mdl
