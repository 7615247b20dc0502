import MySQL.Mdl.Exclusion

/-!
# Lists of lock requests

`MDL_context::acquire_locks` with the ticket lists of the context.  What memory and the other
connections do to a request is one chance: it gets a new ticket, at once or after waiting, or it
fails.  The lists are those that a context of the lock manager has.
-/

namespace MySQL.Mdl

open List Function

/-- A granted ticket; the number is its address. -/
structure HeldTicket where
  id : ℕ
  key : MdlKey
  type : MdlType
  deriving DecidableEq

/-- The ticket lists `m_tickets`, each with the last ticket in front. -/
abbrev Tickets := MdlDuration → List HeldTicket

/-- A request after `MDL_request::init`, of statement or transactional duration. -/
structure LockRequest where
  key : MdlKey
  type : MdlType
  transactional : Bool

namespace LockRequest

def duration (r : LockRequest) : MdlDuration :=
  if r.transactional then .transaction else .statement

/-- The key is equal, and `has_stronger_or_equal_type`. -/
def servedBy (r : LockRequest) (t : HeldTicket) : Bool :=
  r.key = t.key && hasStrongerOrEqualType (.ofNamespace t.key.mdlNamespace) t.type r.type

end LockRequest

namespace Tickets

variable (ts : Tickets) (d : MdlDuration)

def push (t : HeldTicket) : Tickets :=
  update ts d (t :: ts d)

/-- `find_ticket`. -/
def findTicket (r : LockRequest) : Option (HeldTicket × MdlDuration) :=
  (State.durationsFrom r.duration).findSome? fun d => ((ts d).find? r.servedBy).map (·, d)

/-- `acquire_lock`, with the ticket of the request; `none` if it fails.  A ticket of another
duration is cloned. -/
def acquireLock (r : LockRequest) (chance : Option ℕ) : Option (Tickets × HeldTicket) :=
  match ts.findTicket r with
  | some (t, d) =>
    if d = r.duration then some (ts, t)
    else chance.map fun id => (ts.push r.duration ⟨id, t.key, r.type⟩, ⟨id, t.key, r.type⟩)
  | none => chance.map fun id => (ts.push r.duration ⟨id, r.key, r.type⟩, ⟨id, r.key, r.type⟩)

/-- `release_locks_stored_before`; no sentinel is NULL. -/
def releaseLocksStoredBefore (sentinel : Option HeldTicket) : Tickets :=
  update ts d ((ts d).dropWhile fun t => sentinel.all fun s => t.id ≠ s.id)

/-- `rollback_to_savepoint`; a savepoint has the first tickets of the two lists. -/
def rollbackToSavepoint (stmt trans : Option HeldTicket) : Tickets :=
  (ts.releaseLocksStoredBefore .statement stmt).releaseLocksStoredBefore .transaction trans

section Acquire

variable (requests : ℕ → LockRequest) (chance : ℕ → Option ℕ)

/-- The loop over the sorted requests, with the requests that were served; the result also says
whether a request failed. -/
def acquireLoop : List ℕ → List ℕ → Tickets → (ℕ → Option HeldTicket) →
    Bool × List ℕ × Tickets × (ℕ → Option HeldTicket)
  | [], served, ts, ticket => (false, served, ts, ticket)
  | i :: rest, served, ts, ticket =>
    match ts.acquireLock (requests i) (chance i) with
    | some (ts, t) => acquireLoop rest (i :: served) ts (update ticket i (some t))
    | none => (true, served, ts, update ticket i none)

/-- `acquire_locks`: whether it fails, the tickets of the context and those of the requests.  The
requests are sorted to `sortBuf` if there is memory for it. -/
def acquireLocks (memory : Bool) (sortBuf : List ℕ) (ts : Tickets) :
    Bool × Tickets × (ℕ → Option HeldTicket) :=
  if sortBuf = [] then (false, ts, fun _ => none)
  else if memory = false then (true, ts, fun _ => none)
  else
    match acquireLoop requests chance sortBuf [] ts fun _ => none with
    | (false, _, ts', ticket) => (false, ts', ticket)
    | (true, served, ts', ticket) =>
      (true, ts'.rollbackToSavepoint (ts .statement).head? (ts .transaction).head?,
        served.foldl (fun ticket i => update ticket i none) ticket)

end Acquire

/-! ## What a request does -/

variable {ts ts' ts₀ : Tickets} {r : LockRequest} {t : HeldTicket} {d : MdlDuration}
  {chance : ℕ → Option ℕ}

theorem servedBy_iff : r.servedBy t = true ↔ r.key = t.key ∧
    hasStrongerOrEqualType (.ofNamespace t.key.mdlNamespace) t.type r.type = true := by
  rw [LockRequest.servedBy, Bool.and_eq_true, decide_eq_true_eq]

theorem findTicket_spec (h : ts.findTicket r = some (t, d)) : t ∈ ts d ∧ r.servedBy t = true := by
  obtain ⟨d', -, hfind⟩ := List.exists_of_findSome?_eq_some h
  obtain ⟨t', hfind', heq⟩ := Option.map_eq_some_iff.mp hfind
  obtain ⟨rfl, rfl⟩ := Prod.mk.inj heq
  exact ⟨List.mem_of_find?_eq_some hfind', List.find?_some hfind'⟩

theorem hasStrongerOrEqualType_self (k : LockKind) (type : MdlType) :
    hasStrongerOrEqualType k type type = true := by
  revert k type
  decide

theorem mem_push {d' : MdlDuration} {t' : HeldTicket} :
    t' ∈ ts.push d t d' ↔ t' ∈ ts d' ∨ d' = d ∧ t' = t := by
  unfold push
  by_cases hd : d' = d
  · subst hd
    rw [update_self, mem_cons]
    tauto
  · simp [hd]

/-- A request gets a ticket that serves it, and at most one new ticket is put in front of a list. -/
theorem acquireLock_spec {c : Option ℕ} (h : ts.acquireLock r c = some (ts', t)) :
    (∃ d, t ∈ ts' d) ∧ r.servedBy t = true ∧
      (ts' = ts ∨ c = some t.id ∧ ts' = ts.push r.duration t) := by
  have hserved {id : ℕ} {key : MdlKey} (hkey : r.key = key) :
      r.servedBy ⟨id, key, r.type⟩ = true := by
    simp [LockRequest.servedBy, hkey, hasStrongerOrEqualType_self]
  unfold acquireLock at h
  split at h
  · next t' d hfind =>
    obtain ⟨hmem, hserves⟩ := findTicket_spec hfind
    split at h
    · obtain ⟨rfl, rfl⟩ := Prod.mk.inj (Option.some.inj h)
      exact ⟨⟨d, hmem⟩, hserves, .inl rfl⟩
    · obtain ⟨id, hid, heq⟩ := Option.map_eq_some_iff.mp h
      obtain ⟨rfl, rfl⟩ := Prod.mk.inj heq
      exact ⟨⟨_, mem_push.mpr (.inr ⟨rfl, rfl⟩)⟩, hserved (servedBy_iff.mp hserves).1,
        .inr ⟨hid, rfl⟩⟩
  · obtain ⟨id, hid, heq⟩ := Option.map_eq_some_iff.mp h
    obtain ⟨rfl, rfl⟩ := Prod.mk.inj heq
    exact ⟨⟨_, mem_push.mpr (.inr ⟨rfl, rfl⟩)⟩, hserved rfl, .inr ⟨hid, rfl⟩⟩

/-- The lists have new tickets in front of those that were there. -/
structure Grown (chance : ℕ → Option ℕ) (ts₀ ts : Tickets) : Prop where
  append : ∀ d, ∃ l, ts d = l ++ ts₀ d ∧ ∀ t ∈ l, ∃ i, chance i = some t.id
  explicit : ts .explicit = ts₀ .explicit

theorem Grown.refl (chance : ℕ → Option ℕ) (ts : Tickets) : Grown chance ts ts :=
  ⟨fun _ => ⟨[], rfl, fun _ h => (not_mem_nil h).elim⟩, rfl⟩

theorem Grown.push (h : Grown chance ts₀ ts) (r : LockRequest) {i : ℕ}
    (ht : chance i = some t.id) : Grown chance ts₀ (ts.push r.duration t) := by
  refine ⟨fun d => ?_, ?_⟩
  · obtain ⟨l, heq, hl⟩ := h.append d
    by_cases hd : d = r.duration
    · subst hd
      refine ⟨t :: l, ?_, fun t' ht' => ?_⟩
      · rw [Tickets.push, update_self, heq, cons_append]
      · rcases mem_cons.mp ht' with rfl | ht'
        · exact ⟨i, ht⟩
        · exact hl t' ht'
    · exact ⟨l, by rw [Tickets.push, update_of_ne hd, heq], hl⟩
  · have hne : MdlDuration.explicit ≠ r.duration := by
      unfold LockRequest.duration
      split <;> simp
    rw [Tickets.push, update_of_ne hne, h.explicit]

theorem acquireLoop_spec (requests : ℕ → LockRequest) (sortBuf served : List ℕ)
    {ticket : ℕ → Option HeldTicket} (hgrown : Grown chance ts₀ ts)
    (hserved : ∀ i, ticket i ≠ none → i ∈ served)
    (hticket : ∀ i ∈ served, ∃ t d, ticket i = some t ∧ t ∈ ts d ∧ (requests i).servedBy t = true)
    {result : Bool × List ℕ × Tickets × (ℕ → Option HeldTicket)}
    (h : acquireLoop requests chance sortBuf served ts ticket = result) :
    Grown chance ts₀ result.2.2.1 ∧ (∀ i, result.2.2.2 i ≠ none → i ∈ result.2.1) ∧
      (result.1 = false → ∀ i ∈ sortBuf ++ served, ∃ t d, result.2.2.2 i = some t ∧
        t ∈ result.2.2.1 d ∧ (requests i).servedBy t = true) := by
  induction sortBuf generalizing served ts ticket with
  | nil =>
    subst h
    exact ⟨hgrown, hserved, fun _ => hticket⟩
  | cons i rest ih =>
    rw [acquireLoop] at h
    split at h
    · next ts₁ t hacquire =>
      obtain ⟨⟨d, hmem⟩, hserves, hlists⟩ := acquireLock_spec hacquire
      have hkeep {t' : HeldTicket} {d' : MdlDuration} (ht' : t' ∈ ts d') : t' ∈ ts₁ d' := by
        rcases hlists with rfl | ⟨-, rfl⟩
        · exact ht'
        · exact mem_push.mpr (.inl ht')
      have hgrown' : Grown chance ts₀ ts₁ := by
        rcases hlists with rfl | ⟨hid, rfl⟩
        · exact hgrown
        · exact hgrown.push (requests i) hid
      have hserved' : ∀ j, update ticket i (some t) j ≠ none → j ∈ i :: served := by
        intro j hj
        by_cases hji : j = i
        · exact hji ▸ mem_cons_self
        · rw [update_of_ne hji] at hj
          exact mem_cons_of_mem i (hserved j hj)
      obtain ⟨hgrown'', hserved'', hall⟩ := ih (i :: served) hgrown' hserved' (fun j hj => by
        by_cases hji : j = i
        · exact ⟨t, d, by rw [hji, update_self], hmem, hji ▸ hserves⟩
        · obtain ⟨t', d', htick, hmem', hserves'⟩ :=
            hticket j ((mem_cons.mp hj).resolve_left hji)
          exact ⟨t', d', by rw [update_of_ne hji, htick], hkeep hmem', hserves'⟩) h
      refine ⟨hgrown'', hserved'', fun hok j hj => hall hok j ?_⟩
      rw [cons_append, mem_cons, mem_append] at hj
      rw [mem_append, mem_cons]
      tauto
    · subst h
      refine ⟨hgrown, fun j hj => hserved j ?_, fun hok => nomatch hok⟩
      dsimp only at hj
      by_cases hji : j = i
      · rw [hji] at hj
        simp at hj
      · rwa [update_of_ne hji] at hj

/-! ## Rolling back -/

theorem dropWhile_grown {l l₀ : List HeldTicket} (hfresh : ∀ t ∈ l, ∀ t₀ ∈ l₀, t.id ≠ t₀.id) :
    (l ++ l₀).dropWhile (fun t => l₀.head?.all fun s => t.id ≠ s.id) = l₀ := by
  have hall : ∀ t ∈ l, l₀.head?.all (fun s => t.id ≠ s.id) = true := by
    intro t ht
    cases l₀ with
    | nil => rfl
    | cons s l₀ => simpa using hfresh t ht s mem_cons_self
  rw [dropWhile_append_of_pos hall]
  cases l₀ with
  | nil => rfl
  | cons s l₀ => simp

theorem Grown.rollback (h : Grown chance ts₀ ts)
    (hfresh : ∀ i id, chance i = some id → ∀ d, ∀ t ∈ ts₀ d, t.id ≠ id) :
    ts.rollbackToSavepoint (ts₀ .statement).head? (ts₀ .transaction).head? = ts₀ := by
  have hdrop (d : MdlDuration) :
      (ts d).dropWhile (fun t => (ts₀ d).head?.all fun s => t.id ≠ s.id) = ts₀ d := by
    obtain ⟨l, heq, hl⟩ := h.append d
    rw [heq]
    refine dropWhile_grown fun t ht t₀ ht₀ heq' => ?_
    obtain ⟨i, hi⟩ := hl t ht
    exact hfresh i t.id hi d t₀ ht₀ heq'.symm
  funext d
  cases d with
  | statement => exact hdrop .statement
  | transaction => exact hdrop .transaction
  | explicit => exact h.explicit

theorem foldl_reset (served : List ℕ) (ticket : ℕ → Option HeldTicket) (i : ℕ) :
    served.foldl (fun ticket i => update ticket i none) ticket i =
      if i ∈ served then none else ticket i := by
  induction served generalizing ticket with
  | nil => simp
  | cons j served ih =>
    rw [foldl_cons, ih]
    by_cases hij : i = j
    · simp [hij]
    · simp [hij]

/-- If `acquire_locks` fails, the context has the tickets that it had and no request has one; else
every request has a ticket of the context of the same key and of the requested or a stronger type.
New tickets have other addresses than those that the context has. -/
theorem acquireLocks_all_or_nothing (requests : ℕ → LockRequest) (chance : ℕ → Option ℕ)
    (memory : Bool) (sortBuf : List ℕ) (ts : Tickets)
    (hfresh : ∀ i id, chance i = some id → ∀ d, ∀ t ∈ ts d, t.id ≠ id) :
    let result := acquireLocks requests chance memory sortBuf ts
    (result.1 = true → result.2.1 = ts ∧ ∀ i, result.2.2 i = none) ∧
      (result.1 = false → ∀ i ∈ sortBuf, ∃ t d, result.2.2 i = some t ∧ t ∈ result.2.1 d ∧
        t.key = (requests i).key ∧
        hasStrongerOrEqualType (.ofNamespace t.key.mdlNamespace) t.type (requests i).type =
          true) := by
  obtain ⟨hgrown, hserved, hall⟩ := acquireLoop_spec requests sortBuf []
    (Grown.refl chance ts) (fun i h => absurd rfl h) (fun i hi => (not_mem_nil hi).elim) rfl
  unfold acquireLocks
  split
  · next hnil =>
    refine ⟨fun h => (nomatch h), fun _ i hi => ?_⟩
    rw [hnil] at hi
    exact (not_mem_nil hi).elim
  split
  · exact ⟨fun _ => ⟨rfl, fun _ => rfl⟩, fun h => nomatch h⟩
  split
  · next hloop =>
    refine ⟨fun h => (nomatch h), fun _ i hi => ?_⟩
    rw [hloop] at hall
    obtain ⟨t, d, htick, hmem, hserves⟩ := hall rfl i (mem_append_left [] hi)
    obtain ⟨hkey, htype⟩ := servedBy_iff.mp hserves
    exact ⟨t, d, htick, hmem, hkey.symm, htype⟩
  · next hloop =>
    rw [hloop] at hgrown hserved
    refine ⟨fun _ => ⟨hgrown.rollback hfresh, fun i => ?_⟩, fun h => nomatch h⟩
    dsimp only
    rw [foldl_reset]
    split
    · rfl
    · next hi => exact not_not.mp fun hne => hi (hserved i hne)

/-- The second of two requests fails; the first had a new ticket. -/
theorem acquireLocks_all_or_nothing_second :
    let requests (i : ℕ) : LockRequest := ⟨⟨.table, "d", if i = 0 then "a" else "b"⟩, .shared, true⟩
    let result := acquireLocks requests (fun i => if i = 0 then some 7 else none) true [0, 1]
      fun _ => [⟨1, ⟨.table, "d", "c"⟩, .shared⟩]
    result.1 = true ∧ result.2.1 .transaction = [⟨1, ⟨.table, "d", "c"⟩, .shared⟩] := by
  refine ⟨by decide, ?_⟩
  rw [((acquireLocks_all_or_nothing _ _ true [0, 1] _ ?_).1 (by decide)).1]
  intro i id hid d t ht
  have hid' : id = 7 := by
    split at hid
    · exact (Option.some.inj hid).symm
    · exact nomatch hid
  rw [mem_singleton.mp ht, hid']
  decide

end Tickets

/-! ## The tickets of a context of the lock manager -/

namespace State

variable {s s' : State} {c : ContextId} {r : LockRequest} {d : MdlDuration} {ref : TicketRef}
  {k : MdlTicket} {i : LockId} {type : MdlType}

/-- The ticket that a pointer of the lock manager points to. -/
def view (s : State) (ref : TicketRef) : HeldTicket :=
  ⟨ref.ticket, (s.lock ref.lock).key, (s.ticket? ref).elim .shared (·.type)⟩

def held (s : State) (c : ContextId) : Tickets := fun d => (s.tickets c d).map s.view

theorem held_setTickets (s : State) (c : ContextId) (d : MdlDuration) (refs : List TicketRef) :
    (s.setTickets c d refs).held c = update (s.held c) d (refs.map s.view) := by
  have hlists : (s.setTickets c d refs).tickets c = update (s.tickets c) d refs := update_self ..
  change List.map s.view ∘ (s.setTickets c d refs).tickets c = _
  rw [hlists, comp_update]
  rfl

theorem Inv.ticket?_eq (h : s.Inv) (hk : k ∈ (s.lock i).granted.list) :
    s.ticket? ⟨k.id, i⟩ = some k := by
  have hsome : (s.ticket? ⟨k.id, i⟩).isSome := find?_isSome.mpr ⟨k, hk, by simp⟩
  obtain ⟨j, hj⟩ := Option.isSome_iff_exists.mp hsome
  have hid : j.id = k.id := by simpa using find?_some hj
  rw [hj, (h.lock i).eq_of_id (mem_append_left _ (mem_of_find?_eq_some hj))
    (mem_append_left _ hk) hid]

/-- The tickets of the context stay what they are while they stay in the granted queues. -/
theorem Inv.view_eq (h : s.Inv) (h' : s'.Inv) (href : s.Owned c ref)
    (hmem : ∀ k ∈ (s.lock ref.lock).granted.list, k.id = ref.ticket →
      k ∈ (s'.lock ref.lock).granted.list)
    (hkey : (s'.lock ref.lock).key = (s.lock ref.lock).key) : s'.view ref = s.view ref := by
  obtain ⟨k, hk, hid, -⟩ := (h.context c).owned ref href
  have hold := h.ticket?_eq hk
  have hnew := h'.ticket?_eq (hmem k hk hid)
  rw [hid] at hold hnew
  rw [view, view, hold, hnew, hkey]

theorem Inv.held_frame {m : MdlMap} (h : s.Inv) (h' : { s with map := m }.Inv)
    (hf : MdlMap.Frame s.map m) : { s with map := m }.held c = s.held c := by
  refine funext fun d => map_congr_left fun ref href => ?_
  obtain ⟨k, hk, -⟩ := (h.context c).owned ref (owned_iff.mpr ⟨d, href⟩)
  refine h.view_eq h' (owned_iff.mpr ⟨d, href⟩) (fun k hk _ => ?_) (hf.key _ ?_)
  · rwa [State.lock, hf.granted]
  · exact MdlMap.isEmpty_eq_false (mem_append_left _ hk)

theorem Inv.servedBy_view (h : s.Inv) (r : LockRequest) (href : s.Owned c ref) :
    r.servedBy (s.view ref) = s.serves ⟨r.key, r.type, d⟩ ref := by
  obtain ⟨k, hk, hid, -⟩ := (h.context c).owned ref href
  have hticket := h.ticket?_eq hk
  rw [hid] at hticket
  have hkind : (s.lock ref.lock).kind = .ofNamespace (s.lock ref.lock).key.mdlNamespace :=
    (h.findable (mem_append_left _ hk)).elim (h.sound.locks_kind _)
      (h.sound.preallocated_kind _)
  simp [LockRequest.servedBy, serves, view, hticket, hkind, eq_comm]

theorem Inv.findTicket_held (h : s.Inv) (c : ContextId) (r : LockRequest) :
    (s.held c).findTicket r =
      (s.findTicket c ⟨r.key, r.type, r.duration⟩).map (Prod.map s.view id) := by
  unfold Tickets.findTicket findTicket
  rw [map_findSome?]
  congr 1
  funext d
  have hserved : (s.tickets c d).find? (r.servedBy ∘ s.view) =
      (s.tickets c d).find? (s.serves ⟨r.key, r.type, r.duration⟩) :=
    find?_congr fun _ href => h.servedBy_view r (owned_iff.mpr ⟨d, href⟩)
  rw [held, find?_map, hserved, Function.comp, Option.map_map, Option.map_map]
  rfl

theorem Inv.held_grantNew (h : s.Inv) (h' : (s.grantNew c d i type).Inv) :
    (s.grantNew c d i type).view ⟨s.nextTicket, i⟩ = ⟨s.nextTicket, (s.lock i).key, type⟩ ∧
      (s.grantNew c d i type).held c =
        (s.held c).push d ⟨s.nextTicket, (s.lock i).key, type⟩ := by
  have hkeys : ∀ j, ((s.grantNew c d i type).lock j).key = (s.lock j).key :=
    MdlMap.setLock_same MdlLock.key rfl
  have hnew : (s.grantNew c d i type).view ⟨s.nextTicket, i⟩ =
      ⟨s.nextTicket, (s.lock i).key, type⟩ := by
    rw [view, h'.ticket?_eq (mem_granted_grantNew s c d i type), hkeys]
    rfl
  have hold (d' : MdlDuration) :
      (s.tickets c d').map (s.grantNew c d i type).view = s.held c d' := by
    refine map_congr_left fun ref href => ?_
    exact h.view_eq h' (owned_iff.mpr ⟨d', href⟩) (fun k hk _ => granted_grantNew _ k hk) (hkeys _)
  refine ⟨hnew, ?_⟩
  unfold State.grantNew at hnew hold ⊢
  rw [held_setTickets, Tickets.push, ← hnew, ← hold d]
  exact congrArg (update · d _) (funext hold)

theorem key_of_holds {m : MdlMap} (h : m.Sound) {key : MdlKey} (hi : m.Holds i key)
    (hglobal : key.mdlNamespace = .global → key = MdlMap.globalLockKey)
    (hcommit : key.mdlNamespace = .commit → key = MdlMap.commitLockKey) :
    (m.heap i).key = key := by
  unfold MdlMap.Holds MdlMap.preallocated? at hi
  split at hi
  · next hpre =>
    split at hpre
    · next hspace =>
      obtain rfl := Option.some.inj hpre
      rw [hi, h.global_key, hglobal hspace]
    · next hspace =>
      obtain rfl := Option.some.inj hpre
      rw [hi, h.commit_key, hcommit hspace]
    · exact nomatch hpre
  · exact hi.2

/-- A request that gets its ticket in the lock manager gets it in the lists of the context, with
the address of the next ticket if it needs a new one. -/
theorem Inv.acquireLock_held (h : s.Inv) (hc : s.place c = .idle) {oom : OutOfMemory}
    (hglobal : r.key.mdlNamespace = .global → r.key = MdlMap.globalLockKey)
    (hcommit : r.key.mdlNamespace = .commit → r.key = MdlMap.commitLockKey)
    (hacquire : s.tryAcquireLockImpl c ⟨r.key, r.type, r.duration⟩ oom = .acquired ref s') :
    (s.held c).acquireLock r (some s.nextTicket) = some (s'.held c, s'.view ref) := by
  have hinv := (tryAcquireLockImpl_tried h.sound c ⟨r.key, r.type, r.duration⟩ oom).inv h hc
  rw [hacquire] at hinv
  have hdur : r.duration ≠ .explicit := by
    unfold LockRequest.duration
    split <;> simp
  unfold Tickets.acquireLock
  rw [h.findTicket_held]
  unfold tryAcquireLockImpl at hacquire
  split at hacquire
  · next ref' found hfind =>
    obtain ⟨k, hk, hkey, -⟩ := serves_iff.mp (findTicket_eq_some hfind).2
    rw [hfind]
    simp only [hdur, decide_false, Bool.or_false, decide_eq_true_eq] at hacquire
    split at hacquire
    · next hd =>
      obtain ⟨rfl, rfl⟩ := Outcome.acquired.inj hacquire
      obtain ⟨hnew, hlists⟩ := h.held_grantNew hinv
      rw [hlists, hnew]
      simp [hd, view]
    · next hd =>
      obtain ⟨rfl, rfl⟩ := Outcome.acquired.inj hacquire
      simp [not_not.mp hd]
  · next hnone =>
    obtain ⟨hm, hf, hres⟩ := MdlMap.findOrInsert_spec h.sound r.key oom
    rw [hnone]
    split at hacquire
    · cases hacquire
    · next i m heq =>
      rw [heq] at hm hf hres
      split at hacquire
      · obtain ⟨rfl, rfl⟩ := Outcome.acquired.inj hacquire
        have hmap := h.withMap hm hf
        obtain ⟨hnew, hlists⟩ := hmap.held_grantNew hinv
        have hkey : (m.heap i).key = r.key := key_of_holds hm (hres i rfl) hglobal hcommit
        rw [hlists, hnew, h.held_frame hmap hf, State.lock, hkey]
        rfl
      · cases hacquire

/-- A wait that ends with the ticket granted puts it in front of the list. -/
theorem Inv.finishWait_held (h : s.Inv) {cfg : Config} {req : MdlRequest}
    (hplace : s.place c = .waiting req ref .statement) (hslot : s.slots c = .granted)
    (hfinish : s.finishWait cfg c = some s') :
    s'.held c = (s.held c).push req.duration ⟨ref.ticket, (s.lock ref.lock).key, req.type⟩ := by
  have hp := (h.context c).place
  simp only [PlaceOk, hplace, hslot, if_true] at hp
  simp only [State.finishWait, hplace, hslot, Option.some.injEq] at hfinish
  obtain rfl := hfinish
  refine (held_setTickets s c _ _).trans ?_
  rw [map_cons, view, h.ticket?_eq hp.1]
  rfl

theorem Inv.held_ticketRemoved (h : s.Inv) (cfg : Config) (hi : i ∈ s.map.locks ∨ i < 2)
    (c : ContextId) : (s.ticketRemoved cfg i).held c = s.held c := by
  have h' := h.ticketRemoved cfg hi
  unfold State.ticketRemoved at h' ⊢
  split at h' <;> split
  · next hempty =>
    have hf := (MdlMap.removeLock_spec cfg.mdlLocksCacheSize h.sound hempty hi).2
    exact h.held_frame h' hf
  · contradiction
  · contradiction
  · have hkey : ((s.rescheduleWaiters cfg i).lock i).key = (s.lock i).key := (h.pass cfg i).same.key
    rw [State.rescheduleWaiters, State.lock, setLock, MdlMap.heap_setLock_self] at hkey
    refine funext fun d => map_congr_left fun ref href => ?_
    exact h.view_eq h' (owned_iff.mpr ⟨d, href⟩)
      (fun k hk _ => h.granted_rescheduleWaiters cfg i _ k hk)
      (MdlMap.setLock_same MdlLock.key hkey ref.lock)

/-- Releasing a ticket takes it from its list, and leaves the others what they are. -/
theorem Inv.releaseLock_held (h : s.Inv) (hc : s.place c = .idle) {cfg : Config}
    (href : ref ∈ s.tickets c d) (hrelease : s.releaseLock cfg c d ref = some s') :
    s'.held c = update (s.held c) d (((s.tickets c d).erase ref).map s.view) := by
  obtain ⟨k, hk, heq⟩ := Option.bind_eq_some_iff.mp hrelease
  obtain rfl := Option.some.inj heq
  have hmem := (h.ticket?_owned (owned_iff.mpr ⟨d, href⟩) hk).1
  have hlists : (s.dropGranted c d ref ref.lock k).tickets c =
      update (s.tickets c) d ((s.tickets c d).erase ref) := update_self ..
  have hkeys : ∀ j, ((s.dropGranted c d ref ref.lock k).lock j).key = (s.lock j).key :=
    MdlMap.setLock_same MdlLock.key rfl
  have hothers : (s.dropGranted c d ref ref.lock k).held c =
      List.map s.view ∘ (s.dropGranted c d ref ref.lock k).tickets c := by
    refine funext fun d' => map_congr_left fun r hr => ?_
    obtain ⟨hr', hstays⟩ := h.owned_dropGranted href hk (owned_iff.mpr ⟨d', hr⟩)
    exact h.view_eq (h.dropGranted hc href hk) hr' hstays (hkeys _)
  rw [(h.dropGranted hc href hk).held_ticketRemoved cfg (h.findable (mem_append_left _ hmem)),
    hothers, hlists, comp_update]
  rfl

end State

end MySQL.Mdl
