import MySQL.Mdl.Lock

/-!
# What a pass over the waiting queue does

`reschedule_waiters` moves some waiting tickets to the granted queue and signals
their contexts.  `Pass` says everything the lock manager may rely on about such
a pass; it is reflexive and transitive, so it is proved for one iteration of the
loop and follows for the loop.
-/

namespace MySQL.Mdl

open List Function

namespace MdlLock

def tickets (l : MdlLock) : List MdlTicket := l.granted.list ++ l.waiting.list

def Compatible (l : MdlLock) : Prop :=
  ∀ j ∈ l.granted.list, ∀ k ∈ l.granted.list, j.ctx ≠ k.ctx →
    ¬ Incompatible l.kind j.type k.type

/-- The fields that only the lock map writes. -/
structure SameObject (l l' : MdlLock) : Prop where
  key : l'.key = l.key
  kind : l'.kind = l.kind
  refUsage : l'.refUsage = l.refUsage
  refRelease : l'.refRelease = l.refRelease
  isDestroyed : l'.isDestroyed = l.isDestroyed
  version : l'.version = l.version

theorem SameObject.refl (l : MdlLock) : SameObject l l := ⟨rfl, rfl, rfl, rfl, rfl, rfl⟩

theorem SameObject.trans {l₁ l₂ l₃ : MdlLock} (h : SameObject l₁ l₂) (h' : SameObject l₂ l₃) :
    SameObject l₁ l₃ :=
  ⟨h'.key.trans h.key, h'.kind.trans h.kind, h'.refUsage.trans h.refUsage,
    h'.refRelease.trans h.refRelease, h'.isDestroyed.trans h.isDestroyed,
    h'.version.trans h.version⟩

/-- The effect of granting some of the waiting tickets of a lock. -/
structure Pass (l : MdlLock) (w : Slots) (l' : MdlLock) (w' : Slots) : Prop where
  same : SameObject l l'
  perm : l'.tickets.Perm l.tickets
  granted_mono : ∀ k ∈ l.granted.list, k ∈ l'.granted.list
  granted_from : ∀ k ∈ l'.granted.list, k ∈ l.granted.list ∨ k ∈ l.waiting.list
  waiting_sub : ∀ k ∈ l'.waiting.list, k ∈ l.waiting.list
  /-- A waiting ticket is left alone with its slot, or is granted and signalled. -/
  waiter : ∀ k ∈ l.waiting.list,
    (k ∈ l'.waiting.list ∧ w' k.ctx = w k.ctx) ∨
      (k ∈ l'.granted.list ∧ k ∉ l'.waiting.list ∧ w k.ctx = .empty ∧ w' k.ctx = .granted)
  slot : ∀ c, (∀ k ∈ l.waiting.list, k.ctx ≠ c) → w' c = w c

namespace Pass

variable {l l' l'' : MdlLock} {w w' w'' : Slots}

theorem of_queues_eq (hsame : SameObject l l') (hg : l'.granted = l.granted)
    (hw : l'.waiting = l.waiting) : Pass l w l' w where
  same := hsame
  perm := by simp [tickets, hg, hw]
  granted_mono := by simp [hg]
  granted_from k hk := .inl (by rwa [← hg])
  waiting_sub := by simp [hw]
  waiter k hk := .inl ⟨by rwa [hw], rfl⟩
  slot _ _ := rfl

theorem refl (l : MdlLock) (w : Slots) : Pass l w l w :=
  of_queues_eq (.refl l) rfl rfl

theorem slot_of_ne_empty (h : Pass l w l' w') {c : ContextId} (hc : w c ≠ .empty) : w' c = w c := by
  by_cases hk : ∃ k ∈ l.waiting.list, k.ctx = c
  · obtain ⟨k, hk, rfl⟩ := hk
    rcases h.waiter k hk with ⟨-, hw⟩ | ⟨-, -, hw, -⟩
    · exact hw
    · exact absurd hw hc
  · exact h.slot c (by simpa using hk)

theorem trans (h : Pass l w l' w') (h' : Pass l' w' l'' w'') : Pass l w l'' w'' where
  same := h.same.trans h'.same
  perm := h'.perm.trans h.perm
  granted_mono k hk := h'.granted_mono k (h.granted_mono k hk)
  granted_from k hk := by
    rcases h'.granted_from k hk with hg | hw
    · exact h.granted_from k hg
    · exact .inr (h.waiting_sub k hw)
  waiting_sub k hk := h.waiting_sub k (h'.waiting_sub k hk)
  waiter k hk := by
    rcases h.waiter k hk with ⟨hstay, hslot⟩ | ⟨hg, hgone, hempty, hsig⟩
    · rw [← hslot]
      exact h'.waiter k hstay
    · refine .inr ⟨h'.granted_mono k hg, fun hw => hgone (h'.waiting_sub k hw), hempty, ?_⟩
      rw [h'.slot_of_ne_empty (by simp [hsig]), hsig]
  slot c hc := by
    rw [h'.slot c fun k hk => hc k (h.waiting_sub k hk), h.slot c hc]

theorem blocked (h : Pass l w l' w') {type : MdlType} {c : ContextId}
    (hb : l.Blocked type c) : l'.Blocked type c := by
  obtain ⟨j, hj, hne, hinc⟩ := hb
  exact ⟨j, h.granted_mono j hj, hne, by rwa [h.same.kind]⟩

theorem outranked (h : Pass l w l' w') {k : MdlTicket} (hempty : w' k.ctx = .empty)
    (ho : l.Outranked k.type) : l'.Outranked k.type ∨ l'.Blocked k.type k.ctx := by
  obtain ⟨j, hj, hhas⟩ := ho
  rw [← h.same.kind] at hhas
  rcases h.waiter j hj with ⟨hstay, -⟩ | ⟨hg, -, -, hsig⟩
  · exact .inl ⟨j, hstay, hhas⟩
  · refine .inr ⟨j, hg, ?_, incompatible_of_waiting hhas⟩
    intro hctx
    rw [hctx, hempty] at hsig
    cases hsig

end Pass

/-! ## One iteration -/

section Iteration

variable {l : MdlLock} {w : Slots} {k : MdlTicket} {skip : Bool}

theorem tryGrant_cases (skip : Bool) (l : MdlLock) (w : Slots) (k : MdlTicket) :
    (tryGrant skip (l, w) k = (l, w) ∧
      ((skip = true ∧ l.isHog k.type = true) ∨ w k.ctx ≠ .empty ∨ l.Blocked k.type k.ctx ∨
        (skip = false ∧ l.Outranked k.type))) ∨
    (tryGrant skip (l, w) k = (l.grantWaiter k, update w k.ctx .granted) ∧
      w k.ctx = .empty ∧ ¬ l.Blocked k.type k.ctx) := by
  have hgrant := canGrantLock_iff l k.type k.ctx skip
  unfold tryGrant
  by_cases hhog : skip = true ∧ l.isHog k.type = true
  · exact .inl ⟨by simp [hhog.1, hhog.2], .inl hhog⟩
  · have hhog' : ¬ ((skip && l.isHog k.type) = true) := by simpa using hhog
    simp only [hhog', Bool.false_eq_true, if_false]
    by_cases hcan : l.canGrantLock k.type k.ctx skip = true
    · by_cases hempty : w k.ctx = .empty
      · exact .inr ⟨by simp [hcan, hempty], hempty, (hgrant.mp hcan).2⟩
      · exact .inl ⟨by simp [hcan, hempty], .inr (.inl hempty)⟩
    · refine .inl ⟨by simp [hcan], .inr (.inr ?_)⟩
      rw [hgrant] at hcan
      cases skip with
      | false => simpa [or_iff_not_imp_left, and_comm] using hcan
      | true => exact .inl (by simpa using hcan)

theorem grantWaiter_pass (hk : k ∈ l.waiting.list) (hnodup : (l.waiting.list.map (·.ctx)).Nodup)
    (hempty : w k.ctx = .empty) :
    Pass l w (l.grantWaiter k) (update w k.ctx .granted) where
  same := ⟨rfl, rfl, rfl, rfl, rfl, rfl⟩
  perm := by
    have hw := TicketList.removeTicket_perm (.of_map _ hnodup) hk
    simp only [tickets, grantWaiter, TicketList.list_addTicket, append_assoc,
      singleton_append]
    exact hw.symm.append_left _
  granted_mono j hj := by simp [grantWaiter, hj]
  granted_from j hj := by
    rcases mem_append.mp hj with hj | hj
    · exact .inl hj
    · exact .inr (by simpa using mem_singleton.mp hj ▸ hk)
  waiting_sub j hj := (mem_filter.mp hj).1
  waiter j hj := by
    by_cases hjk : j = k
    · subst hjk
      exact .inr (by simp [grantWaiter, hempty])
    · have hctx : j.ctx ≠ k.ctx := fun h => hjk (inj_on_of_nodup_map hnodup hj hk h)
      exact .inl (by simp [grantWaiter, hj, hjk, hctx])
  slot c hc := update_of_ne (hc k hk).symm _ _

theorem compatible_of_granted_subset {l' : MdlLock} (hl : l.Compatible)
    (hnot : ¬ l.Blocked k.type k.ctx) (hkind : l'.kind = l.kind)
    (hsub : ∀ j ∈ l'.granted.list, j ∈ l.granted.list ∨ j = k) : l'.Compatible := by
  have hnew : ∀ j ∈ l.granted.list, j.ctx ≠ k.ctx → ¬ Incompatible l.kind k.type j.type :=
    fun j hj hne hinc => hnot ⟨j, hj, hne, hinc⟩
  intro i hi j hj hne
  rw [hkind]
  rcases hsub i hi with hi | rfl <;> rcases hsub j hj with hj | rfl
  · exact hl i hi j hj hne
  · exact fun hinc => hnew i hi hne (incompatible_symm hinc)
  · exact hnew j hj hne.symm
  · exact absurd rfl hne

theorem tryGrant_pass (skip : Bool) (hk : k ∈ l.waiting.list)
    (hnodup : (l.waiting.list.map (·.ctx)).Nodup) :
    Pass l w (tryGrant skip (l, w) k).1 (tryGrant skip (l, w) k).2 := by
  rcases tryGrant_cases skip l w k with ⟨heq, -⟩ | ⟨heq, hempty, -⟩
  · rw [heq]
    exact .refl l w
  · rw [heq]
    exact grantWaiter_pass hk hnodup hempty

theorem tryGrant_waiting (skip : Bool) (l : MdlLock) (w : Slots) (k : MdlTicket) :
    (tryGrant skip (l, w) k).1.waiting.list = l.waiting.list ∨
      (tryGrant skip (l, w) k).1.waiting.list = l.waiting.list.filter (fun j => j ≠ k) := by
  rcases tryGrant_cases skip l w k with ⟨heq, -⟩ | ⟨heq, -, -⟩
  · exact .inl (by rw [heq])
  · exact .inr (by rw [heq]; rfl)

theorem tryGrant_compatible (skip : Bool) (hl : l.Compatible) :
    (tryGrant skip (l, w) k).1.Compatible := by
  rcases tryGrant_cases skip l w k with ⟨heq, -⟩ | ⟨heq, -, hnot⟩
  · rwa [heq]
  · rw [heq]
    exact compatible_of_granted_subset hl hnot rfl fun j hj => by simpa [grantWaiter] using hj

end Iteration

/-! ## The loop -/

section Loop

variable {l : MdlLock} {w : Slots}

def Ungrantable (l : MdlLock) (k : MdlTicket) : Prop :=
  l.Blocked k.type k.ctx ∨ l.Outranked k.type

theorem ungrantable_iff (l : MdlLock) (k : MdlTicket) :
    l.Ungrantable k ↔ l.canGrantLock k.type k.ctx false = false := by
  rw [← Bool.not_eq_true, canGrantLock_iff]
  simp only [Ungrantable, Bool.false_eq_true, false_or]
  tauto

theorem Pass.ungrantable {l' : MdlLock} {w' : Slots} (h : Pass l w l' w') {k : MdlTicket}
    (hempty : w' k.ctx = .empty) (hk : l.Ungrantable k) : l'.Ungrantable k := by
  rcases hk with hb | ho
  · exact .inl (h.blocked hb)
  · exact (h.outranked hempty ho).symm

def LeftBehind (skip : Bool) (l : MdlLock) (k : MdlTicket) : Prop :=
  if skip then l.isHog k.type = true ∨ l.Blocked k.type k.ctx else l.Ungrantable k

theorem Pass.leftBehind {skip : Bool} {l' : MdlLock} {w' : Slots} (h : Pass l w l' w')
    {k : MdlTicket} (hempty : w' k.ctx = .empty) (hk : LeftBehind skip l k) :
    LeftBehind skip l' k := by
  cases skip with
  | false => exact h.ungrantable hempty hk
  | true =>
    rcases hk with hhog | hb
    · exact .inl (by simpa [isHog, h.same.kind] using hhog)
    · exact .inr (h.blocked hb)

theorem tryGrant_leftBehind (skip : Bool) {k : MdlTicket}
    (hstay : k ∈ (tryGrant skip (l, w) k).1.waiting.list)
    (hempty : (tryGrant skip (l, w) k).2 k.ctx = .empty) :
    LeftBehind skip (tryGrant skip (l, w) k).1 k := by
  rcases tryGrant_cases skip l w k with ⟨heq, hwhy⟩ | ⟨heq, -, -⟩
  · rw [heq] at hempty ⊢
    rcases hwhy with ⟨rfl, hhog⟩ | hne | hb | ⟨rfl, ho⟩
    · exact .inl hhog
    · exact absurd hempty hne
    · cases skip with
      | false => exact .inl hb
      | true => exact .inr hb
    · exact .inr ho
  · simp [heq, grantWaiter] at hstay

theorem foldl_tryGrant_pass (skip : Bool) (ks : List MdlTicket) (hks : ks.Nodup) :
    ∀ (l : MdlLock) (w : Slots), (∀ k ∈ ks, k ∈ l.waiting.list) →
      (l.waiting.list.map (·.ctx)).Nodup →
      Pass l w (ks.foldl (tryGrant skip) (l, w)).1 (ks.foldl (tryGrant skip) (l, w)).2 ∧
      ∀ k ∈ ks, k ∈ (ks.foldl (tryGrant skip) (l, w)).1.waiting.list →
        (ks.foldl (tryGrant skip) (l, w)).2 k.ctx = .empty →
        LeftBehind skip (ks.foldl (tryGrant skip) (l, w)).1 k := by
  induction ks with
  | nil =>
    intro l w _ _
    exact ⟨.refl l w, by simp⟩
  | cons a ks ih =>
    intro l w hmem hnodup
    obtain ⟨hak, hks⟩ := nodup_cons.mp hks
    have hpass := tryGrant_pass (w := w) skip (hmem a mem_cons_self) hnodup
    have hwait := tryGrant_waiting skip l w a
    have hsub : (tryGrant skip (l, w) a).1.waiting.list.Sublist l.waiting.list := by
      rcases hwait with h | h
      · rw [h]
      · rw [h]
        exact filter_sublist
    have hstill : ∀ k ∈ ks, k ∈ (tryGrant skip (l, w) a).1.waiting.list := by
      intro k hk
      have hkl := hmem k (mem_cons_of_mem a hk)
      have hne : k ≠ a := fun h => hak (h ▸ hk)
      rcases hwait with h | h
      · rwa [h]
      · simpa [h, hne] using hkl
    obtain ⟨hrest, hleft⟩ := ih hks _ (tryGrant skip (l, w) a).2 hstill
      (hnodup.sublist (hsub.map _))
    refine ⟨hpass.trans hrest, ?_⟩
    intro k hk hstay hempty
    rcases mem_cons.mp hk with rfl | hk
    · have hstay' := hrest.waiting_sub k hstay
      have hempty' : (tryGrant skip (l, w) k).2 k.ctx = .empty := by
        rcases hrest.waiter k hstay' with ⟨-, hslot⟩ | ⟨-, hgone, -⟩
        · rw [← hslot]
          exact hempty
        · exact absurd hstay hgone
      exact hrest.leftBehind hempty (tryGrant_leftBehind skip hstay' hempty')
    · exact hleft k hk hstay hempty

theorem foldl_tryGrant_compatible (skip : Bool) (ks : List MdlTicket) (hl : l.Compatible) :
    (ks.foldl (tryGrant skip) (l, w)).1.Compatible := by
  induction ks generalizing l w with
  | nil => exact hl
  | cons a ks ih => exact ih (tryGrant_compatible skip hl)

variable (maxWriteLockCount : BitVec 64)

theorem Pass.of_counters {l' : MdlLock} {w' : Slots} (h : Pass l w l' w') (b : Bool) :
    Pass l w { l'.resetHogCount with gaveWay := b } w' := by
  have hsame : Pass l' w' { l'.resetHogCount with gaveWay := b } w' := by
    unfold resetHogCount
    split <;> exact .of_queues_eq ⟨rfl, rfl, rfl, rfl, rfl, rfl⟩ rfl rfl
  exact h.trans hsame

theorem rescheduleWaiters_pass (hnodup : (l.waiting.list.map (·.ctx)).Nodup) :
    Pass l w (l.rescheduleWaiters maxWriteLockCount w).1
      (l.rescheduleWaiters maxWriteLockCount w).2 :=
  (foldl_tryGrant_pass _ l.waiting.list (.of_map _ hnodup) l w (fun _ hk => hk)
    hnodup).1.of_counters _

theorem rescheduleWaiters_compatible (hl : l.Compatible) :
    (l.rescheduleWaiters maxWriteLockCount w).1.Compatible := by
  have h := foldl_tryGrant_compatible (w := w) (l.givesWay maxWriteLockCount) l.waiting.list hl
  simp only [rescheduleWaiters, resetHogCount]
  split <;> exact h

theorem rescheduleWaiters_leftBehind (hnodup : (l.waiting.list.map (·.ctx)).Nodup)
    {k : MdlTicket} (hk : k ∈ (l.rescheduleWaiters maxWriteLockCount w).1.waiting.list)
    (hempty : (l.rescheduleWaiters maxWriteLockCount w).2 k.ctx = .empty) :
    LeftBehind (l.rescheduleWaiters maxWriteLockCount w).1.gaveWay
      (l.rescheduleWaiters maxWriteLockCount w).1 k := by
  have hloop := foldl_tryGrant_pass (l.givesWay maxWriteLockCount) l.waiting.list
    (.of_map _ hnodup) l w (fun _ hk => hk) hnodup
  have hkl := (rescheduleWaiters_pass maxWriteLockCount hnodup).waiting_sub k hk
  have hcounters := (Pass.refl (l.waiting.list.foldl (tryGrant (l.givesWay maxWriteLockCount))
    (l, w)).1 (l.waiting.list.foldl (tryGrant (l.givesWay maxWriteLockCount))
    (l, w)).2).of_counters (l.givesWay maxWriteLockCount)
  exact hcounters.leftBehind hempty
    (hloop.2 k hkl (hcounters.waiting_sub k hk) hempty)

end Loop

end MdlLock

end MySQL.Mdl
