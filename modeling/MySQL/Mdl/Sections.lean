import MySQL.Mdl.Invariant

/-!
# The sections keep the invariant

One lemma for each thing a section does to the queues; the steps of the system are
put together from them.
-/

namespace MySQL.Mdl

open List

namespace State

variable {s : State} {c : ContextId} {i : LockId} {l : MdlLock} {k : MdlTicket} {ref : TicketRef}
  {req : MdlRequest} {caller : Caller} {d : MdlDuration} {type : MdlType}

theorem owned_iff : s.Owned c ref ↔ ∃ d, ref ∈ s.tickets c d := by
  constructor
  · rintro (h | h | h)
    · exact ⟨_, h⟩
    · exact ⟨_, h⟩
    · exact ⟨_, h⟩
  · rintro ⟨d, h⟩
    cases d
    · exact .inl h
    · exact .inr (.inl h)
    · exact .inr (.inr h)

theorem owned_iff_mem : s.Owned c ref ↔ ref ∈ s.allTickets c := by
  simp [Owned, allTickets]

theorem allTickets_cons_perm (s : State) (c : ContextId) (d : MdlDuration) (ref : TicketRef) :
    ((s.setTickets c d (ref :: s.tickets c d)).allTickets c).Perm (ref :: s.allTickets c) := by
  cases d
  · simp [allTickets, setTickets]
  · simp [allTickets, setTickets]
  · simp [allTickets, setTickets, -append_assoc]

theorem allTickets_erase_perm (s : State) (c : ContextId) (href : ref ∈ s.tickets c d) :
    (s.allTickets c).Perm
      (ref :: (s.setTickets c d ((s.tickets c d).erase ref)).allTickets c) := by
  have hd := perm_cons_erase href
  cases d
  · simpa [allTickets, setTickets] using hd.append_right _
  · simpa [allTickets, setTickets] using
      ((hd.append_right _).append_left _).trans perm_middle
  · simpa [allTickets, setTickets, -append_assoc] using
      (hd.append_left _).trans perm_middle

@[simp] theorem lock_setPlace (s : State) (c : ContextId) (p : Place) (i : LockId) :
    (s.setPlace c p).lock i = s.lock i := rfl

@[simp] theorem lock_setLock_self (s : State) (i : LockId) (l : MdlLock) :
    (s.setLock i l).lock i = l :=
  MdlMap.heap_setLock_self s.map i l

theorem lock_setLock_of_ne {j : LockId} (hj : j ≠ i) (s : State) (l : MdlLock) :
    (s.setLock i l).lock j = s.lock j :=
  MdlMap.heap_setLock_of_ne hj s.map l

/-! ## The map -/

theorem Inv.withMap (h : s.Inv) {m : MdlMap} (hm : m.Sound) (hf : s.map.Frame m) :
    { s with map := m }.Inv where
  sound := hm
  lock i := (h.lock i).of_frame hf
  context c := (h.context c).of_sameView
    { tickets := rfl
      place := rfl
      slot := rfl
      granted := fun i k _ => by simp [State.lock, hf.granted]
      waiting := fun i k _ => by simp [State.lock, hf.waiting] }

theorem Inv.not_waiting (h : s.Inv) (hc : s.place c = .idle) (hk : k ∈ (s.lock i).waiting.list) :
    k.ctx ≠ c := by
  intro hctx
  obtain ⟨⟨req, caller, hp⟩, -⟩ := (h.context c).waiter i k hk hctx
  rw [hc] at hp
  cases hp

theorem Inv.mem_tickets (h : s.Inv) (href : s.Owned c ref) :
    ∃ k ∈ (s.lock ref.lock).tickets, k.id = ref.ticket ∧ k.ctx = c := by
  obtain ⟨k, hk, hkref⟩ := (h.context c).owned ref href
  exact ⟨k, mem_append_left _ hk, hkref⟩

theorem Inv.not_owned_next (h : s.Inv) (i : LockId) : ¬ s.Owned c ⟨s.nextTicket, i⟩ := by
  intro href
  obtain ⟨k, hk, hid, -⟩ := h.mem_tickets href
  have hlt := (h.lock i).fresh k hk
  rw [hid] at hlt
  exact lt_irrefl _ hlt

theorem Inv.holds (h : s.Inv) (href : s.Owned c ref) :
    s.map.Holds ref.lock (s.lock ref.lock).key := by
  obtain ⟨k, hk, -⟩ := h.mem_tickets href
  exact h.sound.holds_of_nonempty (MdlMap.isEmpty_eq_false hk)

/-! ## Another content of one lock object -/

section

variable {s' : State} (h : s.Inv) (hmap : s'.map = s.map.setLock i l)
include h hmap

theorem Inv.of_setLock (hsame : l.key = (s.lock i).key ∧ l.kind = (s.lock i).kind ∧
      l.isDestroyed = (s.lock i).isDestroyed)
    (hi : i ∈ s.map.locks ∨ i < 2) (hnext : s.nextTicket ≤ s'.nextTicket)
    (hl : l.Ok s'.nextTicket) (hc : s'.ContextOk c)
    (hother : ∀ c' ≠ c, s'.tickets c' = s.tickets c' ∧ s'.place c' = s.place c' ∧
      s'.slots c' = s.slots c')
    (hg : ∀ k, k.ctx ≠ c → (k ∈ l.granted.list ↔ k ∈ (s.lock i).granted.list))
    (hw : ∀ k, k.ctx ≠ c → (k ∈ l.waiting.list ↔ k ∈ (s.lock i).waiting.list)) : s'.Inv := by
  have hlock : ∀ {P : LockId → MdlLock → Prop}, P i l → (∀ j, P j (s.lock j)) →
      ∀ j, P j (s'.lock j) := fun hi hj j => by
    rw [State.lock, hmap]
    exact MdlMap.setLock_induction hi hj j
  refine h.of_local c ?_ ?_ hc fun c' hc' => ?_
  · rw [hmap]
    exact h.sound.setLock hsame.1 hsame.2.1 hsame.2.2 fun _ => hi
  · exact hlock hl fun j => (h.lock j).mono hnext
  · obtain ⟨htickets, hplace, hslot⟩ := hother c' hc'
    refine ⟨htickets, hplace, hslot, fun j k hk => ?_, fun j k hk => ?_⟩
    · exact hlock (P := fun j l => k ∈ l.granted.list ↔ k ∈ (s.lock j).granted.list)
        (hg k (hk ▸ hc')) (fun _ => Iff.rfl) j
    · exact hlock (P := fun j l => k ∈ l.waiting.list ↔ k ∈ (s.lock j).waiting.list)
        (hw k (hk ▸ hc')) (fun _ => Iff.rfl) j

theorem Inv.contextOk_of_idle (hc : s.place c = .idle) (hw : l.waiting = (s.lock i).waiting)
    (hplace : s'.place = s.place) (howned : ∀ ref, s'.Owned c ref →
      ∃ k ∈ (s'.lock ref.lock).granted.list, k.id = ref.ticket ∧ k.ctx = c)
    (honce : (s'.allTickets c).Nodup) : s'.ContextOk c := by
  refine ⟨howned, honce, by simp [PlaceOk, hplace, hc], fun j k hk hctx => ?_⟩
  have hwaiting : (s'.lock j).waiting = (s.lock j).waiting := by
    rw [State.lock, hmap]
    exact MdlMap.setLock_same MdlLock.waiting hw j
  rw [hwaiting] at hk
  exact absurd hctx (h.not_waiting hc hk)

end

/-! ## Granting -/

theorem lock_grantNew_self (s : State) (c : ContextId) (d : MdlDuration) (i : LockId)
    (type : MdlType) : (s.grantNew c d i type).lock i = (s.lock i).grant ⟨s.nextTicket, c, type⟩ :=
  lock_setLock_self s i _

theorem allTickets_grantNew_perm (s : State) (c : ContextId) (d : MdlDuration) (i : LockId)
    (type : MdlType) : ((s.grantNew c d i type).allTickets c).Perm
      (⟨s.nextTicket, i⟩ :: s.allTickets c) :=
  allTickets_cons_perm s c d _

theorem owned_grantNew :
    (s.grantNew c d i type).Owned c ref ↔ ref = ⟨s.nextTicket, i⟩ ∨ s.Owned c ref := by
  rw [owned_iff_mem, (allTickets_grantNew_perm s c d i type).mem_iff, mem_cons,
    owned_iff_mem]

theorem mem_tickets_grantNew (s : State) (c : ContextId) (d : MdlDuration) (i : LockId)
    (type : MdlType) : ⟨s.nextTicket, i⟩ ∈ (s.grantNew c d i type).tickets c d := by
  simp [State.grantNew, setTickets]

theorem mem_granted_grantNew (s : State) (c : ContextId) (d : MdlDuration) (i : LockId)
    (type : MdlType) : ⟨s.nextTicket, c, type⟩ ∈ ((s.grantNew c d i type).lock i).granted.list := by
  rw [lock_grantNew_self]
  exact mem_append_right _ (mem_singleton_self _)

theorem granted_grantNew : ∀ j, ∀ k ∈ (s.lock j).granted.list,
    k ∈ ((s.grantNew c d i type).lock j).granted.list :=
  MdlMap.setLock_induction (P := fun j l => ∀ k ∈ (s.lock j).granted.list, k ∈ l.granted.list)
    (fun _ hk => mem_append_left _ hk) fun _ _ hk => hk

section

variable (h : s.Inv)

include h

theorem Inv.grantNew (hc : s.place c = .idle) (hi : i ∈ s.map.locks ∨ i < 2)
    (hnot : ¬ (s.lock i).Blocked type c) (d : MdlDuration) : (s.grantNew c d i type).Inv := by
  have hperm : ((s.lock i).grant ⟨s.nextTicket, c, type⟩).tickets.Perm
      (⟨s.nextTicket, c, type⟩ :: (s.lock i).tickets) := by
    simp [MdlLock.tickets, MdlLock.grant]
  refine h.of_setLock (c := c) rfl ⟨rfl, rfl, rfl⟩ hi (Nat.le_succ _) ?_ ?_ ?_ ?_
    fun _ _ => Iff.rfl
  · exact (h.lock i).insert rfl hperm (MdlLock.compatible_of_granted_subset (h.lock i).compatible
      (k := ⟨s.nextTicket, c, type⟩) hnot rfl (by simp [MdlLock.grant]))
  · refine h.contextOk_of_idle rfl hc rfl rfl ?_ ?_
    · intro ref href
      rcases owned_grantNew.mp href with rfl | href
      · exact ⟨_, mem_granted_grantNew s c d i type, rfl, rfl⟩
      · obtain ⟨k, hk, hkref⟩ := (h.context c).owned ref href
        exact ⟨k, granted_grantNew _ k hk, hkref⟩
    · rw [(allTickets_grantNew_perm s c d i type).nodup_iff, nodup_cons, ← owned_iff_mem]
      exact ⟨h.not_owned_next i, (h.context c).once⟩
  · intro c' hc'
    simp [State.grantNew, setTickets, setLock, hc']
  · intro k hk
    have hne : k ≠ ⟨s.nextTicket, c, type⟩ := by rintro rfl; exact hk rfl
    simp [MdlLock.grant, hne]

theorem Inv.enqueueNew (hc : s.place c = .idle) (hi : i ∈ s.map.locks ∨ i < 2)
    (hcaller : ∀ t savepoint, caller = .upgrade t savepoint →
      s.Owned c t ∧ i = t.lock ∧ req.type = .exclusive ∧ req.duration = .transaction) :
    (s.enqueueNew c req i caller).Inv := by
  have hlock : (s.enqueueNew c req i caller).lock i =
      (s.lock i).enqueue ⟨s.nextTicket, c, req.type⟩ := lock_setLock_self s i _
  have hgranted : ∀ j, ((s.enqueueNew c req i caller).lock j).granted = (s.lock j).granted :=
    MdlMap.setLock_same MdlLock.granted rfl
  have hslot : (s.enqueueNew c req i caller).slots c = .empty := by
    simp [State.enqueueNew, setPlace]
  have hplace : (s.enqueueNew c req i caller).place c = .waiting req ⟨s.nextTicket, i⟩ caller := by
    simp [State.enqueueNew, setPlace]
  have hperm : ((s.lock i).enqueue ⟨s.nextTicket, c, req.type⟩).tickets.Perm
      (⟨s.nextTicket, c, req.type⟩ :: (s.lock i).tickets) := by
    simp [MdlLock.tickets, MdlLock.enqueue, ← append_assoc]
  refine h.of_setLock (c := c) rfl ⟨rfl, rfl, rfl⟩ hi (Nat.le_succ _)
    ((h.lock i).insert rfl hperm (h.lock i).compatible) ?_ ?_ (fun _ _ => Iff.rfl) ?_
  · constructor
    · intro ref href
      rw [hgranted]
      exact (h.context c).owned ref href
    · exact (h.context c).once
    · simp only [PlaceOk, hplace, hslot, hlock]
      exact ⟨by simp [MdlLock.enqueue], h.not_owned_next i, hcaller⟩
    · intro j k hk hctx
      by_cases hj : j = i
      · subst hj
        rw [hlock] at hk
        rcases mem_append.mp hk with hk | hk
        · exact absurd hctx (h.not_waiting hc hk)
        · obtain rfl := mem_singleton.mp hk
          exact ⟨⟨req, caller, hplace⟩, by simp [hslot]⟩
      · have hk' : k ∈ (s.lock j).waiting.list := by
          rwa [← lock_setLock_of_ne hj s]
        exact absurd hctx (h.not_waiting hc hk')
  · intro c' hc'
    simp [State.enqueueNew, setPlace, setLock, hc']
  · intro k hk
    have hne : k ≠ ⟨s.nextTicket, c, req.type⟩ := by rintro rfl; exact hk rfl
    simp [MdlLock.enqueue, hne]

theorem Inv.setPlace (hc : ∀ i, ∀ k ∈ (s.lock i).waiting.list, k.ctx ≠ c) {p : Place}
    (hp : (s.setPlace c p).PlaceOk c) : (s.setPlace c p).Inv := by
  refine h.of_local c h.sound h.lock ?_ ?_
  · refine ⟨(h.context c).owned, (h.context c).once, hp, ?_⟩
    intro i k hk hctx
    exact absurd hctx (hc i k hk)
  · intro c' hc'
    exact ⟨rfl, by simp [State.setPlace, hc'], rfl, fun _ _ _ => Iff.rfl, fun _ _ _ => Iff.rfl⟩

/-! ## Releasing -/

theorem Inv.findable (hk : k ∈ (s.lock i).tickets) : i ∈ s.map.locks ∨ i < 2 :=
  h.sound.nonempty i (MdlMap.isEmpty_eq_false hk)

theorem Inv.ticket?_owned (href : s.Owned c ref) (hk : s.ticket? ref = some k) :
    k ∈ (s.lock ref.lock).granted.list ∧ k.id = ref.ticket ∧ k.ctx = c := by
  have hmem := List.mem_of_find?_eq_some hk
  have hid : k.id = ref.ticket := by simpa using List.find?_some hk
  obtain ⟨j, hj, hjid, hjctx⟩ := (h.context c).owned ref href
  have hjk : j = k := (h.lock ref.lock).eq_of_id (mem_append_left _ hj)
    (mem_append_left _ hmem) (hjid.trans hid.symm)
  exact ⟨hmem, hid, hjk ▸ hjctx⟩

/-- The other tickets of the context stay in the granted queues. -/
theorem Inv.owned_dropGranted (href : ref ∈ s.tickets c d) (hk : s.ticket? ref = some k)
    {r : TicketRef} (hr : (s.dropGranted c d ref ref.lock k).Owned c r) :
    s.Owned c r ∧ ∀ k' ∈ (s.lock r.lock).granted.list, k'.id = r.ticket →
      k' ∈ ((s.dropGranted c d ref ref.lock k).lock r.lock).granted.list := by
  have hid := (h.ticket?_owned (owned_iff.mpr ⟨d, href⟩) hk).2.1
  have hall := allTickets_erase_perm s c href
  have hne : r ≠ ref := by
    rintro rfl
    exact (nodup_cons.mp (hall.nodup_iff.mp (h.context c).once)).1 (owned_iff_mem.mp hr)
  refine ⟨owned_iff_mem.mpr (hall.mem_iff.mpr (mem_cons_of_mem _ (owned_iff_mem.mp hr))), ?_⟩
  intro k' hk' hid'
  refine MdlMap.setLock_induction (m := s.map)
    (P := fun j l => ∀ k' ∈ (s.lock j).granted.list, (j = ref.lock → k' ≠ k) →
      k' ∈ l.granted.list)
    (fun k' hk' hne => by simp [hk', hne rfl]) (fun _ _ hk' _ => hk') r.lock k' hk' ?_
  rintro hlock rfl
  exact hne (by cases r; cases ref; simp_all)

theorem Inv.dropGranted (hc : s.place c = .idle) (href : ref ∈ s.tickets c d)
    (hk : s.ticket? ref = some k) : (s.dropGranted c d ref ref.lock k).Inv := by
  obtain ⟨hmem, -, hctx⟩ := h.ticket?_owned (owned_iff.mpr ⟨d, href⟩) hk
  refine h.of_setLock (c := c) rfl ⟨rfl, rfl, rfl⟩ (h.findable (mem_append_left _ hmem)) le_rfl
    ?_ ?_ ?_ ?_ fun _ _ => Iff.rfl
  · exact (h.lock ref.lock).of_sublist rfl (fun j hj => (mem_filter.mp hj).1)
      (filter_sublist.append_right _)
  · have honce := (allTickets_erase_perm s c href).nodup_iff.mp (h.context c).once
    refine h.contextOk_of_idle rfl hc rfl rfl (fun r hr => ?_) (nodup_cons.mp honce).2
    obtain ⟨hr', hstays⟩ := h.owned_dropGranted href hk hr
    obtain ⟨k', hk', hid', hctx'⟩ := (h.context c).owned r hr'
    exact ⟨k', hstays k' hk' hid', hid', hctx'⟩
  · intro c' hc'
    simp [State.dropGranted, setTickets, setLock, hc']
  · intro k' hk'
    have hne : k' ≠ k := by rintro rfl; exact hk' hctx
    simp [hne]

theorem Inv.retype (hc : s.place c = .idle) (hk : k ∈ (s.lock i).granted.list)
    (hctx : k.ctx = c) (hok : ¬ (s.lock i).Blocked type c) : (s.retype i k type).Inv := by
  have hnodup : (s.lock i).granted.list.Nodup :=
    (nodup_append.mp (.of_map _ (h.lock i).ids)).1
  have hperm := TicketList.removeTicket_perm hnodup hk
  have hlock : (s.retype i k type).lock i = { s.lock i with
      granted := ((s.lock i).granted.removeTicket k).addTicket { k with type := type } } :=
    lock_setLock_self s i _
  have hids : (((s.retype i k type).lock i).tickets.map (·.id)).Perm
      ((s.lock i).tickets.map (·.id)) := by
    simp only [hlock, MdlLock.tickets, map_append, TicketList.list_addTicket]
    refine List.Perm.append_right _ ?_
    refine (perm_append_singleton _ _).trans ?_
    simpa using (hperm.map (·.id)).symm
  refine h.of_setLock (c := c) rfl ⟨rfl, rfl, rfl⟩ (h.findable (mem_append_left _ hk)) le_rfl
    ?_ ?_ (fun _ _ => ⟨rfl, rfl, rfl⟩) ?_ fun _ _ => Iff.rfl
  · rw [hlock] at hids
    refine ⟨?_, hids.nodup_iff.mpr (h.lock i).ids, ?_⟩
    · refine MdlLock.compatible_of_granted_subset (h.lock i).compatible
        (k := { k with type := type }) (by rwa [hctx]) rfl ?_
      intro j hj
      simp only [TicketList.list_addTicket, TicketList.list_removeTicket, mem_append,
        mem_filter, mem_singleton] at hj
      exact hj.imp_left And.left
    · intro j hj
      obtain ⟨j', hj', hid⟩ := List.mem_map.mp (hids.mem_iff.mp (List.mem_map_of_mem hj))
      rw [← hid]
      exact (h.lock i).fresh j' hj'
  · refine h.contextOk_of_idle rfl hc rfl rfl ?_ (h.context c).once
    intro ref href
    obtain ⟨k', hk', hid, hctx'⟩ := (h.context c).owned ref href
    by_cases hi : ref.lock = i
    · rw [hi, hlock]
      by_cases hkk : k' = k
      · exact ⟨{ k with type := type }, by simp, hkk ▸ hid, hctx⟩
      · exact ⟨k', by simp [← hi, hk', hkk], hid, hctx'⟩
    · exact ⟨k', by rwa [State.retype, lock_setLock_of_ne hi], hid, hctx'⟩
  · intro k' hk'
    have hne : k' ≠ k := by rintro rfl; exact hk' hctx
    have hne' : k' ≠ { k with type := type } := by rintro rfl; exact hk' hctx
    simp [hne, hne']

theorem Inv.mem_waiting (hp : s.place c = .waiting req ref caller)
    (hs : s.slots c ≠ .granted) : ⟨ref.ticket, c, req.type⟩ ∈ (s.lock ref.lock).waiting.list := by
  have hplace := (h.context c).place
  simp only [PlaceOk, hp, hs, if_false] at hplace
  exact hplace.1

theorem Inv.dropWaiting (hp : s.place c = .waiting req ref caller) (hs : s.slots c ≠ .granted) :
    ((s.setLock ref.lock { s.lock ref.lock with
      waiting := (s.lock ref.lock).waiting.removeTicket
        ⟨ref.ticket, c, req.type⟩ }).setPlace c .idle).Inv := by
  have hk := h.mem_waiting hp hs
  have hgranted : ∀ j, ((s.setLock ref.lock { s.lock ref.lock with
      waiting := (s.lock ref.lock).waiting.removeTicket ⟨ref.ticket, c, req.type⟩ }).lock
        j).granted = (s.lock j).granted :=
    MdlMap.setLock_same MdlLock.granted rfl
  refine h.of_setLock (c := c) rfl ⟨rfl, rfl, rfl⟩ (h.findable (mem_append_right _ hk)) le_rfl
    ((h.lock ref.lock).of_sublist rfl (fun _ hj => hj) (filter_sublist.append_left _)) ?_ ?_
    (fun _ _ => Iff.rfl) ?_
  · constructor
    · intro r hr
      rw [lock_setPlace, hgranted]
      exact (h.context c).owned r hr
    · exact (h.context c).once
    · simp [PlaceOk, State.setPlace]
    · intro j k hkj hctx
      by_cases hj : j = ref.lock
      · subst hj
        have hk' : k ∈ (s.lock ref.lock).waiting.list ∧ k ≠ ⟨ref.ticket, c, req.type⟩ := by
          simpa using hkj
        obtain ⟨⟨req', caller', hp'⟩, -⟩ := (h.context c).waiter _ k hk'.1 hctx
        have hid : k.id = ref.ticket := by
          rw [hp] at hp'
          injection hp' with _ href _
          exact (congrArg TicketRef.ticket href).symm
        exact absurd ((h.lock ref.lock).eq_of_id (mem_append_right _ hk'.1)
          (mem_append_right _ hk) hid) hk'.2
      · have hk' : k ∈ (s.lock j).waiting.list := by
          rwa [← lock_setLock_of_ne hj s]
        obtain ⟨⟨req', caller', hp'⟩, -⟩ := (h.context c).waiter _ k hk' hctx
        rw [hp] at hp'
        injection hp' with _ href _
        exact absurd (congrArg TicketRef.lock href).symm hj
  · intro c' hc'
    simp [State.setPlace, setLock, hc']
  · intro k' hk'
    have hne : k' ≠ ⟨ref.ticket, c, req.type⟩ := by rintro rfl; exact hk' rfl
    simp [hne]

/-! ## Rescheduling -/

theorem Inv.waiting_nodup (i : LockId) : ((s.lock i).waiting.list.map (·.ctx)).Nodup := by
  have hnodup : (s.lock i).waiting.list.Nodup :=
    (nodup_append.mp (.of_map _ (h.lock i).ids)).2.1
  refine hnodup.map_on ?_
  intro j hj k hk hctx
  obtain ⟨⟨req, caller, hpj⟩, -⟩ := (h.context j.ctx).waiter i j hj rfl
  obtain ⟨⟨req', caller', hpk⟩, -⟩ := (h.context j.ctx).waiter i k hk hctx.symm
  rw [hpj] at hpk
  injection hpk with _ href _
  exact (h.lock i).eq_of_id (mem_append_right _ hj) (mem_append_right _ hk)
    (congrArg TicketRef.ticket href)

theorem Inv.pass (cfg : Config) (i : LockId) :
    (s.lock i).Pass s.slots ((s.rescheduleWaiters cfg i).lock i)
      (s.rescheduleWaiters cfg i).slots := by
  have hlock : (s.rescheduleWaiters cfg i).lock i =
      ((s.lock i).rescheduleWaiters cfg.maxWriteLockCount s.slots).1 := lock_setLock_self s i _
  rw [hlock]
  exact MdlLock.rescheduleWaiters_pass _ (h.waiting_nodup i)

end

theorem lock_rescheduleWaiters_of_ne {j : LockId} (hj : j ≠ i) (s : State) (cfg : Config) :
    (s.rescheduleWaiters cfg i).lock j = s.lock j :=
  lock_setLock_of_ne hj s _

section

variable (h : s.Inv) (cfg : Config)

include h

theorem Inv.slot_rescheduleWaiters
    (hc : ∀ req ref caller, s.place c = .waiting req ref caller → ref.lock ≠ i) :
    (s.rescheduleWaiters cfg i).slots c = s.slots c := by
  refine (h.pass cfg i).slot c ?_
  intro k hk hctx
  obtain ⟨⟨req, caller, hp⟩, -⟩ := (h.context c).waiter i k hk hctx
  exact hc req _ caller hp rfl

theorem Inv.granted_rescheduleWaiters (i j : LockId) : ∀ k ∈ (s.lock j).granted.list,
    k ∈ ((s.rescheduleWaiters cfg i).lock j).granted.list := by
  by_cases hj : j = i
  · subst hj
    exact (h.pass cfg j).granted_mono
  · rw [lock_rescheduleWaiters_of_ne hj]
    exact fun _ hk => hk

theorem Inv.placeOk_rescheduleWaiters (i : LockId) (c : ContextId) :
    (s.rescheduleWaiters cfg i).PlaceOk c := by
  have hpass := h.pass cfg i
  have hmono := h.granted_rescheduleWaiters cfg i
  have hp := (h.context c).place
  have hplace : (s.rescheduleWaiters cfg i).place c = s.place c := rfl
  unfold PlaceOk at hp ⊢
  rw [hplace]
  split
  next => trivial
  next req ref caller heq =>
    simp only [heq] at hp
    obtain ⟨hq, hrest⟩ := hp
    refine ⟨?_, hrest⟩
    by_cases hi : ref.lock = i
    · subst hi
      by_cases hs : s.slots c = .granted
      · rw [hpass.slot_of_ne_empty (by simp [hs])]
        simp only [hs, if_true] at hq ⊢
        exact hmono _ _ hq
      · simp only [hs, if_false] at hq
        -- The ticket has stayed with its slot, or it was granted and signalled.
        rcases hpass.waiter _ hq with ⟨hstay, hslot⟩ | ⟨hg, -, -, hsig⟩
        · simpa [hslot, hs] using hstay
        · simpa [hsig] using hg
    · rw [h.slot_rescheduleWaiters cfg (by rintro _ _ _ hw; rw [heq] at hw; cases hw; exact hi),
        lock_rescheduleWaiters_of_ne hi]
      exact hq
  next t savepoint x heq =>
    simp only [heq] at hp
    obtain ⟨ht, hx, hlock, hne, hxg⟩ := hp
    exact ⟨ht, hx, hlock, hne, hmono _ _ hxg⟩

theorem Inv.rescheduleWaiters (i : LockId) : (s.rescheduleWaiters cfg i).Inv := by
  have hpass := h.pass cfg i
  have hlock : (s.rescheduleWaiters cfg i).lock i =
      ((s.lock i).rescheduleWaiters cfg.maxWriteLockCount s.slots).1 := lock_setLock_self s i _
  constructor
  · refine h.sound.setLock ?_ ?_ ?_ ?_
    · exact hlock ▸ hpass.same.key
    · exact hlock ▸ hpass.same.kind
    · exact hlock ▸ hpass.same.isDestroyed
    · intro hne
      refine h.sound.nonempty i ?_
      rw [← hlock, ← Bool.not_eq_true, MdlMap.isEmpty_iff] at hne
      rw [← Bool.not_eq_true, MdlMap.isEmpty_iff]
      intro hempty
      have hnil : ((s.rescheduleWaiters cfg i).lock i).tickets = [] :=
        perm_nil.mp (hpass.perm.trans (by simpa [MdlLock.tickets, State.lock] using hempty))
      exact hne (append_eq_nil_iff.mp hnil)
  · intro j
    by_cases hj : j = i
    · subst hj
      refine ⟨?_, ?_, ?_⟩
      · rw [hlock]
        exact MdlLock.rescheduleWaiters_compatible _ (h.lock j).compatible
      · exact (hpass.perm.map _).nodup_iff.mpr (h.lock j).ids
      · exact fun k hk => (h.lock j).fresh k (hpass.perm.mem_iff.mp hk)
    · rw [lock_rescheduleWaiters_of_ne hj]
      exact h.lock j
  · intro c
    constructor
    · intro ref href
      obtain ⟨k, hk, hkref⟩ := (h.context c).owned ref href
      exact ⟨k, h.granted_rescheduleWaiters cfg i _ k hk, hkref⟩
    · exact (h.context c).once
    · exact h.placeOk_rescheduleWaiters cfg i c
    · intro j k hk hctx
      by_cases hj : j = i
      · subst hj
        obtain ⟨hplace, hslot⟩ := (h.context c).waiter j k (hpass.waiting_sub k hk) hctx
        refine ⟨hplace, ?_⟩
        rcases hpass.waiter k (hpass.waiting_sub k hk) with ⟨-, hsame⟩ | ⟨-, hgone, -⟩
        · rw [hctx] at hsame
          rwa [hsame]
        · exact absurd hk hgone
      · rw [lock_rescheduleWaiters_of_ne hj] at hk
        obtain ⟨⟨req, caller, hp⟩, hslot⟩ := (h.context c).waiter j k hk hctx
        refine ⟨⟨req, caller, hp⟩, ?_⟩
        rw [h.slot_rescheduleWaiters cfg (by rintro _ _ _ hw; rw [hp] at hw; cases hw; exact hj)]
        exact hslot

theorem Inv.ticketRemoved (hi : i ∈ s.map.locks ∨ i < 2) : (s.ticketRemoved cfg i).Inv := by
  unfold State.ticketRemoved
  split
  next hempty =>
    obtain ⟨hm, hf⟩ := MdlMap.removeLock_spec cfg.mdlLocksCacheSize h.sound hempty hi
    exact h.withMap hm hf
  next => exact h.rescheduleWaiters cfg i

/-! ## The wait slot -/

theorem Inv.setStatus {status : WaitStatus} (hs : status ≠ .granted) (c : ContextId) :
    (s.setStatus c status).Inv := by
  unfold State.setStatus
  split
  next hempty =>
    refine h.of_local c h.sound h.lock ?_ ?_
    · have hc := h.context c
      refine ⟨hc.owned, hc.once, ?_, ?_⟩
      · have hp := hc.place
        simp only [PlaceOk, hempty, Function.update_self, hs, reduceCtorEq, if_false] at hp ⊢
        exact hp
      · intro i k hk hctx
        exact ⟨(hc.waiter i k hk hctx).1, by simp [hs]⟩
    · intro c' hc'
      exact ⟨rfl, rfl, by simp [hc'], fun _ _ _ => Iff.rfl, fun _ _ _ => Iff.rfl⟩
  next => exact h

theorem Inv.wakeUp (hp : s.place c = .waiting req ref caller) (hs : s.slots c = .granted) :
    ((s.setTickets c req.duration (ref :: s.tickets c req.duration)).acquired c ref
      caller).Inv := by
  have hplace := (h.context c).place
  simp only [PlaceOk, hp, hs, if_true] at hplace
  obtain ⟨hk, hno, hcaller⟩ := hplace
  have hnone : ∀ i, ∀ k ∈ (s.lock i).waiting.list, k.ctx ≠ c := fun i k hk hctx =>
    ((h.context c).waiter i k hk hctx).2 hs
  have hall := allTickets_cons_perm s c req.duration ref
  have howned : ∀ r, (s.setTickets c req.duration (ref :: s.tickets c req.duration)).Owned c r ↔
      r = ref ∨ s.Owned c r := fun r => by
    rw [owned_iff_mem, hall.mem_iff, mem_cons, owned_iff_mem]
  have hpush : ∀ p, ((s.setTickets c req.duration (ref :: s.tickets c req.duration)).setPlace
      c p).PlaceOk c → ((s.setTickets c req.duration (ref :: s.tickets c req.duration)).setPlace
      c p).Inv := by
    intro p hpok
    refine h.of_local c h.sound h.lock ?_ ?_
    · refine ⟨?_, ?_, hpok, ?_⟩
      · intro r hr
        rcases (howned r).mp hr with rfl | hr
        · exact ⟨_, hk, rfl, rfl⟩
        · exact (h.context c).owned r hr
      · refine hall.nodup_iff.mpr (nodup_cons.mpr ⟨?_, (h.context c).once⟩)
        rwa [← owned_iff_mem]
      · intro i k hk hctx
        exact absurd hctx (hnone i k hk)
    · intro c' hc'
      exact ⟨by simp [State.setPlace, setTickets, hc'],
        by simp [State.setPlace, setTickets, hc'], rfl, fun _ _ _ => Iff.rfl, fun _ _ _ => Iff.rfl⟩
  cases caller with
  | statement => exact hpush .idle (by simp [PlaceOk, State.setPlace])
  | upgrade t savepoint =>
    obtain ⟨ht, hlock, htype, hd⟩ := hcaller t savepoint rfl
    refine hpush (.merging t savepoint ref) ?_
    have hne : ref ≠ t := by rintro rfl; exact hno ht
    simp only [PlaceOk, State.setPlace, Function.update_self]
    refine ⟨(howned t).mpr (.inr ht), ?_, hlock, hne, htype ▸ hk⟩
    simp [setTickets, hd]

end

end State

end MySQL.Mdl
