import MySQL.Mdl.Context

/-!
# The invariant of the lock manager

The invariant has a part for each lock object and a part for each context: where its
tickets are, depending on the place of its thread.  A section run by one context leaves
the parts of the other contexts alone, except for a pass over the waiting queue, which
moves their tickets and writes their slots.
-/

namespace MySQL.Mdl

/-- What holds of every lock object; `n` is the next ticket to be created. -/
structure MdlLock.Ok (n : TicketId) (l : MdlLock) : Prop where
  compatible : l.Compatible
  ids : (l.tickets.map (·.id)).Nodup
  fresh : ∀ k ∈ l.tickets, k.id < n

namespace MdlLock.Ok

variable {n n' : TicketId} {l l' : MdlLock}

theorem mono (h : l.Ok n) (hn : n ≤ n') : l.Ok n' :=
  ⟨h.compatible, h.ids, fun k hk => (h.fresh k hk).trans_le hn⟩

theorem eq_of_id (h : l.Ok n) {j k : MdlTicket} (hj : j ∈ l.tickets) (hk : k ∈ l.tickets)
    (hid : j.id = k.id) : j = k :=
  List.inj_on_of_nodup_map h.ids hj hk hid

theorem of_sublist (h : l.Ok n) (hkind : l'.kind = l.kind)
    (hg : ∀ k ∈ l'.granted.list, k ∈ l.granted.list) (hs : l'.tickets.Sublist l.tickets) :
    l'.Ok n where
  compatible i hi j hj hne := by
    rw [hkind]
    exact h.compatible i (hg i hi) j (hg j hj) hne
  ids := h.ids.sublist (hs.map _)
  fresh k hk := h.fresh k (hs.subset hk)

theorem insert (h : l.Ok n) {k : MdlTicket} (hid : k.id = n)
    (hperm : l'.tickets.Perm (k :: l.tickets)) (hcompat : l'.Compatible) : l'.Ok (n + 1) where
  compatible := hcompat
  ids := by
    rw [(hperm.map _).nodup_iff, List.map_cons, List.nodup_cons]
    refine ⟨?_, h.ids⟩
    intro hmem
    obtain ⟨j, hj, hjk⟩ := List.mem_map.mp hmem
    exact absurd (h.fresh j hj) (by rw [hjk, hid]; exact lt_irrefl n)
  fresh j hj := by
    rcases List.mem_cons.mp (hperm.mem_iff.mp hj) with rfl | hj
    · rw [hid]
      exact Nat.lt_succ_self n
    · exact (h.fresh j hj).trans (Nat.lt_succ_self n)

theorem of_frame {m m' : MdlMap} (hf : m.Frame m') {i : LockId} (h : (m.heap i).Ok n) :
    (m'.heap i).Ok n := by
  have htickets : (m'.heap i).tickets = (m.heap i).tickets := by
    simp only [tickets, hf.granted, hf.waiting]
  refine ⟨?_, by rw [htickets]; exact h.ids, by rw [htickets]; exact h.fresh⟩
  intro j hj k hk hne
  rw [hf.granted] at hj hk
  rw [hf.kind i (MdlMap.isEmpty_eq_false (List.mem_append_left _ hj))]
  exact h.compatible j hj k hk hne

end MdlLock.Ok

namespace State

def allTickets (s : State) (c : ContextId) : List TicketRef :=
  s.tickets c .statement ++ s.tickets c .transaction ++ s.tickets c .explicit

def PlaceOk (s : State) (c : ContextId) : Prop :=
  match s.place c with
  | .idle => True
  | .waiting req ref caller =>
    ⟨ref.ticket, c, req.type⟩ ∈ (if s.slots c = .granted then (s.lock ref.lock).granted.list
      else (s.lock ref.lock).waiting.list) ∧
    ¬ s.Owned c ref ∧
    ∀ t savepoint, caller = .upgrade t savepoint →
      s.Owned c t ∧ ref.lock = t.lock ∧ req.type = .exclusive ∧ req.duration = .transaction
  | .merging t _ x =>
    s.Owned c t ∧ x ∈ s.tickets c .transaction ∧ x.lock = t.lock ∧ x ≠ t ∧
      ⟨x.ticket, c, .exclusive⟩ ∈ (s.lock x.lock).granted.list

/-- The tickets of one context. -/
structure ContextOk (s : State) (c : ContextId) : Prop where
  owned : ∀ ref, s.Owned c ref →
    ∃ k ∈ (s.lock ref.lock).granted.list, k.id = ref.ticket ∧ k.ctx = c
  once : (s.allTickets c).Nodup
  place : s.PlaceOk c
  waiter : ∀ i, ∀ k ∈ (s.lock i).waiting.list, k.ctx = c →
    (∃ req caller, s.place c = .waiting req ⟨k.id, i⟩ caller) ∧ s.slots c ≠ .granted

/-- The invariant. -/
structure Inv (s : State) : Prop where
  sound : s.map.Sound
  lock : ∀ i, (s.lock i).Ok s.nextTicket
  context : ∀ c, s.ContextOk c

/-- Nothing has changed for the context. -/
structure SameView (s s' : State) (c : ContextId) : Prop where
  tickets : s'.tickets c = s.tickets c
  place : s'.place c = s.place c
  slot : s'.slots c = s.slots c
  granted : ∀ i k, k.ctx = c →
    (k ∈ (s'.lock i).granted.list ↔ k ∈ (s.lock i).granted.list)
  waiting : ∀ i k, k.ctx = c →
    (k ∈ (s'.lock i).waiting.list ↔ k ∈ (s.lock i).waiting.list)

theorem SameView.owned {s s' : State} {c : ContextId} (h : SameView s s' c) (ref : TicketRef) :
    s'.Owned c ref ↔ s.Owned c ref := by
  simp only [Owned, h.tickets]

theorem ContextOk.of_sameView {s s' : State} {c : ContextId} (hc : s.ContextOk c)
    (h : SameView s s' c) : s'.ContextOk c where
  owned ref href := by
    obtain ⟨k, hk, hid, hctx⟩ := hc.owned ref ((h.owned ref).mp href)
    exact ⟨k, (h.granted _ k hctx).mpr hk, hid, hctx⟩
  once := by
    rw [allTickets, h.tickets]
    exact hc.once
  place := by
    have hp := hc.place
    unfold PlaceOk at hp ⊢
    rw [h.place]
    split
    next => trivial
    next req ref caller heq =>
      simp only [heq] at hp
      rw [h.slot, h.owned]
      obtain ⟨hq, hno, hcaller⟩ := hp
      refine ⟨?_, hno, ?_⟩
      · split
        next hs => simpa [hs, h.granted] using hq
        next hs => simpa [hs, h.waiting] using hq
      · intro t savepoint ht
        rw [h.owned]
        exact hcaller t savepoint ht
    next t savepoint x heq =>
      simp only [heq] at hp
      rw [h.owned, h.tickets, h.granted _ _ rfl]
      exact hp
  waiter i k hk hctx := by
    rw [h.place, h.slot]
    exact hc.waiter i k ((h.waiting i k hctx).mp hk) hctx

theorem Inv.of_local {s s' : State} (h : s.Inv) (c : ContextId) (hsound : s'.map.Sound)
    (hlock : ∀ i, (s'.lock i).Ok s'.nextTicket) (hc : s'.ContextOk c)
    (hother : ∀ c', c' ≠ c → SameView s s' c') : s'.Inv where
  sound := hsound
  lock := hlock
  context c' := by
    by_cases hcc : c' = c
    · exact hcc ▸ hc
    · exact (h.context c').of_sameView (hother c' hcc)

end State

end MySQL.Mdl
