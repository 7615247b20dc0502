import MySQL.Mdl.MapLifetime

/-!
# Runs of the lock map

With fewer than `2 ^ 32` threads and fewer than `2 ^ 64` removals, the bounds that the
source names for its counters, lock objects are neither leaked nor destroyed too early or
twice, and `find_or_insert` returns the lock for its key.  With `2 ^ 32` threads between
the two sections of `find_or_insert` an object is destroyed while they refer to it.
-/

namespace MySQL.Mdl

open Function

namespace Protocol

def Act.removals : Act → ℕ
  | .use _ _ granted waiting => if granted.isEmpty && waiting.isEmpty then 1 else 0
  | _ => 0

/-- What the users of the map rely on. -/
structure Lifetime (s : State) : Prop where
  once : ∀ i, s.map.destroyCount i ≤ 1
  /-- An object that is neither in the hash nor in the cache and that no thread refers to or
  is about to destroy has been destroyed. -/
  collected : ∀ i, 2 ≤ i → i < s.map.nextLock → i ∉ s.map.locks → i ∉ s.map.unusedLocksCache →
    (∀ t, ¬ (s.place t).FoundAt i ∧ ¬ (s.place t).DestroyingAt i) → s.map.destroyCount i = 1
  /-- An object is not destroyed while a thread that found it has not dropped its
  reference. -/
  referenced : ∀ t key i v, s.place t = .found key i v → s.map.destroyCount i = 0
  /-- The hash has one object for a key. -/
  unique : ∀ i ∈ s.map.locks, ∀ j ∈ s.map.locks, (s.lock i).key = (s.lock j).key → i = j
  /-- The lock that `move_from_hash_to_lock_mutex` accepts. -/
  returned : ∀ t key i v, s.place t = .found key i v →
    (s.map.dropReference i v).1 = .locked →
    (s.lock i).key = key ∧ i ∈ s.map.locks ∧ (s.lock i).isDestroyed = false ∧
      s.map.destroyCount i = 0
  /-- The locks that `find_or_insert` returns without a search. -/
  preallocated : ∀ key i, MdlMap.preallocated? key = some i → key.dbName = "" → key.name = "" →
    (s.lock i).key = key ∧ (s.lock i).isDestroyed = false ∧ s.map.destroyCount i = 0

variable {T : Finset ThreadId} {r : LockId → ℕ} {s s' : State} {a : Act} {cacheSize : ℕ}
  {t : ThreadId} {i : LockId} {key : MdlKey}

theorem inv_init (T : Finset ThreadId) :
    Inv T (fun _ => 0) State.init.map State.init.place where
  sound := .init
  idle _ _ := rfl
  place _ := trivial
  version _ := rfl
  balance i := by
    have hzero : refs T State.init.place i = 0 := Lib.count_eq_zero_iff.mpr fun _ _ => id
    rw [hzero]
    rfl
  object i := by
    have hzero : destructions T State.init.map State.init.place i = 0 :=
      (Nat.zero_add _).trans (Lib.count_eq_zero_iff.mpr fun _ _ => id)
    exact .inl ⟨.inr (.inr (Nat.lt_or_ge i 2)), rfl, hzero⟩

theorem destroyCount_le (T : Finset ThreadId) (s : State) (i : LockId) :
    s.map.destroyCount i ≤ destructions T s.map s.place i :=
  Nat.le_add_right _ _

section

variable (h : Inv T r s.map s.place)

include h

theorem Inv.preallocated_key (hpre : MdlMap.preallocated? key = some i)
    (hdb : key.dbName = "") (hname : key.name = "") : (s.lock i).key = key ∧ i < 2 := by
  obtain ⟨ns, db, name⟩ := key
  subst hdb hname
  unfold MdlMap.preallocated? at hpre
  split at hpre
  next hns =>
    cases hpre
    simp only at hns
    exact ⟨hns ▸ h.sound.global_key, by decide⟩
  next hns =>
    cases hpre
    simp only at hns
    exact ⟨hns ▸ h.sound.commit_key, by decide⟩
  next => cases hpre

theorem Inv.lifetime (hr : ∀ i, r i < 2 ^ 64) : Lifetime s where
  once i := by
    have hle := destroyCount_le T s i
    rcases h.object i with ⟨-, -, hzero⟩ | ⟨-, ⟨-, hone⟩ | ⟨-, hzero, -⟩⟩ <;> omega
  collected i hge hlt hl hu hnone := by
    have hrefs : refs T s.place i = 0 := Lib.count_eq_zero_iff.mpr fun t _ => (hnone t).1
    have hdest : Lib.count T (Place.DestroyingAt i) s.place = 0 :=
      Lib.count_eq_zero_iff.mpr fun t _ => (hnone t).2
    have hn : ¬ Linked s.map i := by
      rintro (hmem | hmem | hsmall | hbig)
      · exact hl hmem
      · exact hu hmem
      · exact absurd hge hsmall.not_ge
      · exact absurd hbig hlt.not_ge
    rcases h.object i with ⟨hlinked, -⟩ | ⟨-, ⟨-, hone⟩ | ⟨hpos, -⟩⟩
    · exact absurd hlinked hn
    · simpa [destructions, hdest] using hone
    · omega
  referenced t key i v hp := by
    have ht : t ∈ T := h.mem_of_place (by simp [hp])
    have hpos : 0 < refs T s.place i := Lib.count_pos ht (by simp [hp])
    have hle := destroyCount_le T s i
    rcases h.object i with ⟨-, -, hzero⟩ | ⟨-, ⟨hnone, -⟩ | ⟨-, hzero, -⟩⟩ <;> omega
  unique := h.sound.key_inj
  returned t key i v hp hlocked := by
    have hv := Inv.dropReference_result s.map i v
    rw [hlocked] at hv
    obtain ⟨hi, hkey⟩ := h.mem_of_version hp (hr i) hv
    have hle := destroyCount_le T s i
    have hzero := h.destructions_eq_zero (.inl hi)
    exact ⟨hkey, hi, h.sound.alive i (.inl hi), by omega⟩
  preallocated key i hpre hdb hname := by
    obtain ⟨hkey, hlt⟩ := h.preallocated_key hpre hdb hname
    have hle := destroyCount_le T s i
    have hzero := h.destructions_eq_zero (.inr (.inr (.inl hlt)))
    exact ⟨hkey, h.sound.preallocated_alive i hlt, by omega⟩

/-! ## Steps -/

theorem Inv.lookup (hp : s.place t = .searching key) (oom : OutOfMemory) :
    ∃ r', Inv T r' (s.lookup t key oom).map (s.lookup t key oom).place ∧ ∀ i, r' i ≤ r i := by
  have ht : t ∈ T := h.mem_of_place (by simp [hp])
  have hkey : MdlMap.preallocated? key = none := by
    have hpt := h.place t
    rw [hp] at hpt
    exact hpt
  have hlooked := MdlMap.lookup_looked s.map key oom
  obtain ⟨r', hinv, hle⟩ := h.looked hlooked hkey
  obtain ⟨-, -, hres⟩ := hlooked.spec h.sound hkey
  refine ⟨r', ?_, hle⟩
  unfold State.lookup
  split
  next m heq =>
    rw [heq] at hinv
    exact hinv.setPlace ht trivial (by simp [hp]) (by simp [hp])
  next i m heq =>
    rw [heq] at hinv hres
    obtain ⟨hi, hik⟩ := hres i rfl
    exact hinv.takeReference hp hi hik

theorem Inv.move (hT : T.card < 2 ^ 32) (hr : ∀ i, r i < 2 ^ 64)
    {v : BitVec 64} (hp : s.place t = .found key i v) (granted waiting : TicketList) :
    Inv T r (s.move t key i v granted waiting).map (s.move t key i v granted waiting).place := by
  have hdrop := h.dropReference hT hp (hr i)
  have hlocked := (h.lifetime hr).returned t key i v hp
  unfold State.move
  split
  next m heq =>
    rw [heq] at hdrop hlocked
    have hi : i ∈ m.locks := by
      have hm : m = (s.map.dropReference i v).2 := by rw [heq]
      rw [hm]
      exact (hlocked rfl).2.1
    exact hdrop.setQueues (.inl hi) granted waiting
  next m heq =>
    rw [heq] at hdrop
    exact hdrop
  next m heq =>
    rw [heq] at hdrop
    exact hdrop

theorem Inv.use (hT : T.card < 2 ^ 32) (ht : t ∈ T)
    (hidle : s.place t = .idle) (hi : HasTicket (s.lock i) t) (granted waiting : TicketList) :
    ∃ r', Inv T r' (s.use cacheSize t i granted waiting).map
        (s.use cacheSize t i granted waiting).place ∧
      ∀ j, r' j ≤ r j + (Act.use t i granted waiting).removals := by
  have hfind : i ∈ s.map.locks ∨ i < 2 := by
    obtain ⟨k, hk, -⟩ := hi
    refine h.sound.nonempty i ?_
    rw [← Bool.not_eq_true, MdlMap.isEmpty_iff]
    rintro ⟨hg, hw⟩
    rw [MdlLock.tickets, State.lock, hg, hw] at hk
    cases hk
  have hqueues := h.setQueues hfind granted waiting
  have hempty : ((State.setQueues s.map i granted waiting).heap i).isEmpty =
      (granted.isEmpty && waiting.isEmpty) := by
    simp [State.setQueues, MdlLock.isEmpty]
  simp only [State.use, Act.removals, ← hempty]
  split
  next hlast =>
    obtain ⟨r', hle, hinv⟩ := hqueues.removed hT ht hidle hlast hfind
      (MdlMap.remove_removed cacheSize _ i)
    refine ⟨r', ?_, hle⟩
    split
    next m heq =>
      rw [heq] at hinv
      exact hinv
    next m heq =>
      rw [heq] at hinv
      exact hinv
  next => exact ⟨r, hqueues, fun _ => le_rfl⟩

theorem Inv.destroyed {retry : Option MdlKey} (hp : s.place t = .destroying i retry) :
    Inv T r (s.destroy t i retry).map (s.destroy t i retry).place := by
  have hpt := h.place t
  rw [hp] at hpt
  cases retry with
  | none => exact h.destroy hp trivial (by simp) (by simp)
  | some key => exact h.destroy hp (hpt key rfl) (by simp) (by simp)

theorem step_inv (hT : T.card < 2 ^ 32) (hr : ∀ i, r i < 2 ^ 64)
    (ha : a.thread ∈ T) (hs : step cacheSize s a = some s') :
    ∃ r', Inv T r' s'.map s'.place ∧ ∀ i, r' i ≤ r i + a.removals := by
  cases a with
  | findOrInsert t key =>
    obtain ⟨⟨hidle, hkey⟩, hs⟩ := Option.ite_none_right_eq_some.mp hs
    cases hs
    have ht : t ∈ T := ha
    exact ⟨r, h.setPlace ht hkey (by simp [hidle]) (by simp [hidle]), fun _ => le_rfl⟩
  | lookup t oom =>
    simp only [step] at hs
    split at hs
    next key hp =>
      cases hs
      exact h.lookup hp oom
    next => cases hs
  | move t granted waiting =>
    simp only [step] at hs
    split at hs
    next key i v hp =>
      obtain ⟨-, hs⟩ := Option.ite_none_right_eq_some.mp hs
      cases hs
      exact ⟨r, h.move hT hr hp granted waiting, fun _ => le_rfl⟩
    next => cases hs
  | lockPreallocated t key granted waiting =>
    simp only [step] at hs
    split at hs
    next i hpre =>
      obtain ⟨⟨-, hdb, hname, -⟩, hs⟩ := Option.ite_none_right_eq_some.mp hs
      cases hs
      exact ⟨r, h.setQueues (.inr (h.preallocated_key hpre hdb hname).2) granted waiting,
        fun _ => le_rfl⟩
    next => cases hs
  | use t i granted waiting =>
    obtain ⟨⟨hidle, hi⟩, hs⟩ := Option.ite_none_right_eq_some.mp hs
    cases hs
    exact h.use hT ha hidle hi granted waiting
  | destroy t =>
    simp only [step] at hs
    split at hs
    next i retry hp =>
      cases hs
      exact ⟨r, h.destroyed hp, fun _ => le_rfl⟩
    next => cases hs

end

theorem run_inv (hT : T.card < 2 ^ 32) {acts : List Act} (hacts : ∀ a ∈ acts, a.thread ∈ T)
    (h : Inv T r s.map s.place) (hr : ∀ i, r i + (acts.map Act.removals).sum < 2 ^ 64)
    (hs : (lockMap cacheSize).run s acts = some s') :
    ∃ r', Inv T r' s'.map s'.place ∧ ∀ i, r' i < 2 ^ 64 := by
  induction acts generalizing s r with
  | nil =>
    cases hs
    exact ⟨r, h, by simpa using hr⟩
  | cons a acts ih =>
    obtain ⟨u, hu, hrest⟩ := Option.bind_eq_some_iff.mp hs
    simp only [List.map_cons, List.sum_cons] at hr
    obtain ⟨r', hinv, hle⟩ := step_inv h hT (fun i => by have := hr i; omega)
      (hacts a List.mem_cons_self) hu
    refine ih (fun b hb => hacts b (List.mem_cons_of_mem a hb)) hinv ?_ hrest
    intro i
    have := hr i
    have := hle i
    omega

/-- The lifetime of lock objects in every run of fewer than `2 ^ 32` threads with fewer
than `2 ^ 64` removals. -/
theorem lifetime_of_run (cacheSize : ℕ) (T : Finset ThreadId) (hT : T.card < 2 ^ 32)
    {acts : List Act} (hacts : ∀ a ∈ acts, a.thread ∈ T)
    (hremovals : (acts.map Act.removals).sum < 2 ^ 64) {s : State}
    (hs : (lockMap cacheSize).run State.init acts = some s) : Lifetime s := by
  obtain ⟨r, hinv, hr⟩ := run_inv hT hacts (inv_init T) (by simpa using hremovals) hs
  exact hinv.lifetime hr

def exampleKey : MdlKey := ⟨.table, "test", "t"⟩

def oneReader : TicketList := TicketList.empty.addTicket ⟨0, 0, .sharedRead⟩

def lastReference : List Act :=
  [.findOrInsert 0 exampleKey, .lookup 0 ⟨false, false⟩, .move 0 oneReader .empty,
    .findOrInsert 1 exampleKey, .lookup 1 ⟨false, false⟩, .use 0 2 .empty .empty,
    .move 1 oneReader .empty, .destroy 1]

theorem lifetime_of_run_lastReference :
    ∃ s, (lockMap 0).run State.init lastReference = some s ∧ Lifetime s ∧
      s.map.destroyCount 2 = 1 := by
  have hrun : ((lockMap 0).run State.init lastReference).any
      (fun s => s.map.destroyCount 2 = 1) = true := by decide
  obtain ⟨s, hs, hcount⟩ := (Option.any_eq_true ..).mp hrun
  exact ⟨s, hs, lifetime_of_run 0 {0, 1} (by decide) (by decide) (by decide) hs,
    of_decide_eq_true hcount⟩

/-! ## Too many threads -/

/-- Thread 0 has a ticket in the lock and `n` other threads have found it. -/
structure Crowd (n : ℕ) (s : State) : Prop where
  locks : s.map.locks = [2]
  unused : s.map.unusedLocksCache = []
  key : (s.lock 2).key = exampleKey
  version : (s.lock 2).version = 0#64
  usage : (s.lock 2).refUsage = 1#32 + BitVec.ofNat 32 n
  release : (s.lock 2).refRelease = 1#32
  ticket : ⟨0, 0, .sharedRead⟩ ∈ (s.lock 2).tickets
  count : s.map.destroyCount 2 = 0
  owner : s.place 0 = .idle
  found : ∀ t, 0 < t → t ≤ n → s.place t = .found exampleKey 2 0#64
  idle : ∀ t, n < t → s.place t = .idle

theorem exists_crowd_zero : ∃ s, (lockMap 0).Reachable s ∧ Crowd 0 s := by
  have hstart : (lockMap 0).Reachable State.init := .start rfl
  refine ⟨_, hstart.run (show (lockMap 0).run State.init [.findOrInsert 0 exampleKey,
    .lookup 0 ⟨false, false⟩, .move 0 oneReader .empty] = some _ from rfl), ?_⟩
  constructor
  · rfl
  · rfl
  · rfl
  · rfl
  · rfl
  · rfl
  · decide
  · rfl
  · rfl
  · intro t hpos hle
    exact absurd hle hpos.not_ge
  · intro t hpos
    have ht : t ≠ 0 := hpos.ne'
    change update (update (update (fun _ => Place.idle) 0 _) 0 _) 0 _ t
      = Place.idle
    simp only [ne_eq, ht, not_false_eq_true, update_of_ne]

theorem Crowd.succ {n : ℕ} {s : State} (hs : (lockMap 0).Reachable s) (h : Crowd n s) :
    ∃ s', (lockMap 0).Reachable s' ∧ Crowd (n + 1) s' := by
  have hidle := h.idle (n + 1) (Nat.lt_succ_self n)
  have hfind : (lockMap 0).step s (.findOrInsert (n + 1) exampleKey) =
      some (s.setPlace (n + 1) (.searching exampleKey)) :=
    if_pos ⟨hidle, rfl⟩
  have hsearch : s.map.lookup exampleKey ⟨false, false⟩ = (some 2, s.map) := by
    have hkey : (s.map.heap 2).key = exampleKey := h.key
    simp [MdlMap.lookup, MdlMap.search, h.locks, hkey]
  have hlook : (lockMap 0).step (s.setPlace (n + 1) (.searching exampleKey))
      (.lookup (n + 1) ⟨false, false⟩) = some ⟨s.map.takeReference 2,
        update s.place (n + 1) (.found exampleKey 2 0#64)⟩ := by
    have hversion : (s.map.heap 2).version = 0#64 := h.version
    simp [lockMap, step, State.setPlace, State.lookup, hsearch, hversion]
  have hlock : (s.map.takeReference 2).heap 2 =
      { s.map.heap 2 with refUsage := (s.map.heap 2).refUsage + 1 } := by
    simp [MdlMap.takeReference, MdlMap.setLock]
  refine ⟨_, (hs.next hfind).next hlook, h.locks, h.unused, ?_, ?_, ?_, ?_, ?_, h.count, ?_,
    ?_, ?_⟩
  · simpa only [State.lock, hlock] using h.key
  · simpa only [State.lock, hlock] using h.version
  · have husage : (s.map.heap 2).refUsage = 1#32 + BitVec.ofNat 32 n := h.usage
    simp only [State.lock, hlock, husage, BitVec.ofNat_add]
    rw [BitVec.add_assoc]
    rfl
  · simpa only [State.lock, hlock] using h.release
  · have hticket : ⟨0, 0, .sharedRead⟩ ∈ (s.map.heap 2).tickets := h.ticket
    simpa only [State.lock, hlock, MdlLock.tickets] using hticket
  · have hne : 0 ≠ n + 1 := (Nat.succ_ne_zero n).symm
    simpa only [update_of_ne hne] using h.owner
  · intro t hpos hle
    by_cases ht : t = n + 1
    · exact ht ▸ update_self ..
    · exact (update_of_ne ht _ _).trans (h.found t hpos (by omega))
  · intro t ht
    exact (update_of_ne ht.ne' _ _).trans (h.idle t (by omega))

theorem exists_crowd (n : ℕ) : ∃ s, (lockMap 0).Reachable s ∧ Crowd n s := by
  induction n with
  | zero => exact exists_crowd_zero
  | succ n ih =>
    obtain ⟨s, hs, h⟩ := ih
    exact h.succ hs

/-- With `2 ^ 32` outstanding references the counters agree again, and the object is
destroyed while every one of those threads still refers to it. -/
theorem exists_destroyed_referenced :
    ∃ s, (lockMap 0).Reachable s ∧ s.place 1 = .found exampleKey 2 0#64 ∧
      s.map.destroyCount 2 = 1 := by
  obtain ⟨s, hs, h⟩ := exists_crowd (2 ^ 32)
  have huse : (lockMap 0).step s (.use 0 2 .empty .empty) = some (s.use 0 0 2 .empty .empty) :=
    if_pos ⟨h.owner, _, h.ticket, rfl⟩
  have hcounters : (s.map.heap 2).refUsage = (s.map.heap 2).refRelease :=
    h.usage.trans h.release.symm
  have hkey : (s.map.heap 2).key = exampleKey := h.key
  obtain ⟨m, hremove, hcount⟩ : ∃ m,
      (State.setQueues s.map 2 .empty .empty).remove 0 2 = (true, m) ∧
        m.destroyCount = s.map.destroyCount := by
    simp [State.setQueues, MdlMap.setLock, MdlMap.remove, hkey, exampleKey, MdlMap.preallocated?,
      hcounters]
  have hm : s.use 0 0 2 .empty .empty =
      ⟨m, update s.place 0 (.destroying 2 none)⟩ := by
    have hempty : ((State.setQueues s.map 2 .empty .empty).heap 2).isEmpty := by
      simp [State.setQueues, MdlMap.setLock, MdlLock.isEmpty]
    simp [State.use, hempty, hremove, State.setPlace]
  have hdestroy : (lockMap 0).step ⟨m, update s.place 0 (.destroying 2 none)⟩
      (.destroy 0) = some ⟨m.destroy 2, update s.place 0 .idle⟩ := by
    simp [lockMap, step, State.destroy, State.setPlace]
  refine ⟨_, (hs.next (huse.trans (congrArg some hm))).next hdestroy, ?_, ?_⟩
  · have hfound := h.found 1 Nat.one_pos Nat.one_le_two_pow
    simpa only [update_of_ne Nat.one_ne_zero] using hfound
  · have hzero : m.destroyCount 2 = 0 := (congrFun hcount 2).trans h.count
    simp [MdlMap.destroy, hzero]

end Protocol

end MySQL.Mdl
