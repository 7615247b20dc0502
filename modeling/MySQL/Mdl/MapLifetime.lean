import MySQL.Lib.Count
import MySQL.Mdl.MapProtocol

/-!
# The lifetime of lock objects

The two reference counts of a lock differ by the number of threads between the two
sections of `find_or_insert`, modulo `2 ^ 32`; the version counts its removals modulo
`2 ^ 64`.  As long as neither can wrap around, an object is destroyed exactly once, after
the last of these threads has dropped its reference.
-/

namespace MySQL.Mdl

namespace Protocol

open Lib (count count_update count_update_of_iff count_eq_zero_iff count_pos count_le_card)
open Function

def Place.FoundAt (i : LockId) (p : Place) : Prop :=
  match p with
  | .found _ j _ => j = i
  | _ => False

instance (i : LockId) : DecidablePred (Place.FoundAt i) := fun p => by
  unfold Place.FoundAt
  cases p <;> infer_instance

def Place.DestroyingAt (i : LockId) (p : Place) : Prop :=
  match p with
  | .destroying j _ => j = i
  | _ => False

instance (i : LockId) : DecidablePred (Place.DestroyingAt i) := fun p => by
  unfold Place.DestroyingAt
  cases p <;> infer_instance

section

variable {i j : LockId} {key : MdlKey} {v : BitVec 64} {retry : Option MdlKey}

@[simp] theorem foundAt_found : (Place.found key j v).FoundAt i ↔ j = i := Iff.rfl

@[simp] theorem foundAt_idle : ¬ Place.idle.FoundAt i := id

@[simp] theorem foundAt_searching : ¬ (Place.searching key).FoundAt i := id

@[simp] theorem foundAt_destroying : ¬ (Place.destroying j retry).FoundAt i := id

@[simp] theorem destroyingAt_found : ¬ (Place.found key j v).DestroyingAt i := id

@[simp] theorem destroyingAt_idle : ¬ Place.idle.DestroyingAt i := id

@[simp] theorem destroyingAt_searching : ¬ (Place.searching key).DestroyingAt i := id

@[simp] theorem destroyingAt_destroying : (Place.destroying j retry).DestroyingAt i ↔ j = i :=
  Iff.rfl

end

def Linked (m : MdlMap) (i : LockId) : Prop :=
  i ∈ m.locks ∨ i ∈ m.unusedLocksCache ∨ i < 2 ∨ m.nextLock ≤ i

section Invariant

variable (T : Finset ThreadId)

def refs (f : ThreadId → Place) (i : LockId) : ℕ := count T (Place.FoundAt i) f

def destructions (m : MdlMap) (f : ThreadId → Place) (i : LockId) : ℕ :=
  m.destroyCount i + count T (Place.DestroyingAt i) f

def ObjectOk (m : MdlMap) (f : ThreadId → Place) (i : LockId) : Prop :=
  (Linked m i ∧ (m.heap i).isDestroyed = false ∧ destructions T m f i = 0) ∨
    (¬ Linked m i ∧ ((refs T f i = 0 ∧ destructions T m f i = 1) ∨
      (0 < refs T f i ∧ destructions T m f i = 0 ∧ (m.heap i).isDestroyed = true)))

/-- What a thread at the place relies on, where `r` counts the removals of each object: if
the object was not removed since the thread found it, it is still there with the key. -/
def PlaceOk (r : LockId → ℕ) (m : MdlMap) : Place → Prop
  | .idle => True
  | .searching key => MdlMap.preallocated? key = none
  | .found key i v => MdlMap.preallocated? key = none ∧ (2 ≤ i ∧ i < m.nextLock) ∧
      ∃ k ≤ r i, v = BitVec.ofNat 64 k ∧ (k = r i → i ∈ m.locks ∧ (m.heap i).key = key)
  | .destroying _ retry => ∀ key, retry = some key → MdlMap.preallocated? key = none

/-- The invariant of the threads of `T` when `r` counts the removals of each object. -/
structure Inv (r : LockId → ℕ) (m : MdlMap) (f : ThreadId → Place) : Prop where
  sound : m.Sound
  idle : ∀ t, t ∉ T → f t = .idle
  place : ∀ t, PlaceOk r m (f t)
  version : ∀ i, (m.heap i).version = BitVec.ofNat 64 (r i)
  balance : ∀ i, (m.heap i).refUsage = (m.heap i).refRelease + BitVec.ofNat 32 (refs T f i)
  object : ∀ i, ObjectOk T m f i

end Invariant

variable {T : Finset ThreadId} {r : LockId → ℕ} {m m' : MdlMap} {f : ThreadId → Place}
  {t : ThreadId} {i : LockId} {key : MdlKey} {p : Place}

theorem PlaceOk.mono (h : PlaceOk r m p) (hnext : m.nextLock ≤ m'.nextLock)
    (hlocks : ∀ i ∈ m.locks, i ∈ m'.locks ∧ (m'.heap i).key = (m.heap i).key) : PlaceOk r m' p := by
  cases p with
  | found key i v =>
    obtain ⟨hkey, ⟨hge, hlt⟩, k, hk, hv, hsame⟩ := h
    refine ⟨hkey, ⟨hge, hlt.trans_le hnext⟩, k, hk, hv, ?_⟩
    intro hkr
    obtain ⟨hi, hik⟩ := hsame hkr
    exact ⟨(hlocks i hi).1, (hlocks i hi).2.trans hik⟩
  | idle => exact h
  | searching key => exact h
  | destroying i retry => exact h

theorem PlaceOk.removed (h : PlaceOk r m p) (hnext : m'.nextLock = m.nextLock)
    (hlocks : ∀ j ∈ m.locks, j ≠ i → j ∈ m'.locks ∧ (m'.heap j).key = (m.heap j).key) :
    PlaceOk (update r i (r i + 1)) m' p := by
  cases p with
  | found key j v =>
    obtain ⟨hkey, hrange, k, hk, hv, hsame⟩ := h
    refine ⟨hkey, hnext ▸ hrange, k, ?_, hv, ?_⟩
    · by_cases hj : j = i
      · subst hj
        rw [update_self]
        omega
      · rwa [update_of_ne hj]
    · intro hkr
      by_cases hj : j = i
      · subst hj
        rw [update_self] at hkr
        omega
      · rw [update_of_ne hj] at hkr
        obtain ⟨hmem, hjk⟩ := hsame hkr
        exact ⟨(hlocks j hmem hj).1, (hlocks j hmem hj).2.trans hjk⟩
  | idle => exact h
  | searching key => exact h
  | destroying j retry => exact h

theorem ObjectOk.congr {f' : ThreadId → Place} (h : ObjectOk T m f i)
    (hlinked : Linked m' i ↔ Linked m i) (hmark : (m'.heap i).isDestroyed = (m.heap i).isDestroyed)
    (hrefs : refs T f' i = refs T f i) (hdest : destructions T m' f' i = destructions T m f i) :
    ObjectOk T m' f' i := by
  unfold ObjectOk at h ⊢
  rw [hlinked, hmark, hrefs, hdest]
  exact h

namespace Inv

theorem mem_of_place (h : Inv T r m f) (ht : f t ≠ .idle) : t ∈ T := by
  by_contra hn
  exact ht (h.idle t hn)

theorem destructions_eq_zero (h : Inv T r m f) (hi : Linked m i) : destructions T m f i = 0 := by
  rcases h.object i with ⟨-, -, hzero⟩ | ⟨hn, -⟩
  · exact hzero
  · exact absurd hi hn

theorem refs_eq_zero (h : Inv T r m f) (hi : m.nextLock ≤ i) : refs T f i = 0 := by
  refine count_eq_zero_iff.mpr ?_
  intro t _ hf
  have hp := h.place t
  cases hpt : f t with
  | found key j v =>
    rw [hpt] at hp hf
    obtain rfl : j = i := hf
    exact absurd hi hp.2.1.2.not_ge
  | idle => rw [hpt] at hf; exact hf
  | searching key => rw [hpt] at hf; exact hf
  | destroying j retry => rw [hpt] at hf; exact hf

theorem idle_update (h : Inv T r m f) (ht : t ∈ T) (p : Place) (u : ThreadId) (hu : u ∉ T) :
    update f t p u = .idle := by
  have hut : u ≠ t := by rintro rfl; exact hu ht
  rw [update_of_ne hut]
  exact h.idle u hu

end Inv

theorem placeOk_update (hp : PlaceOk r m p) (hother : ∀ u, PlaceOk r m (f u)) (u : ThreadId) :
    PlaceOk r m (update f t p u) := by
  by_cases hu : u = t
  · subst hu
    rwa [update_self]
  · rw [update_of_ne hu]
    exact hother u

theorem refs_update (ht : t ∈ T) (f : ThreadId → Place) (p : Place) (i : LockId) :
    refs T (update f t p) i + (if (f t).FoundAt i then 1 else 0) =
      refs T f i + if p.FoundAt i then 1 else 0 :=
  count_update f ht p

theorem destructions_update (ht : t ∈ T) (m : MdlMap) (f : ThreadId → Place) (p : Place)
    (i : LockId) :
    destructions T m (update f t p) i + (if (f t).DestroyingAt i then 1 else 0) =
      destructions T m f i + if p.DestroyingAt i then 1 else 0 := by
  have hcount := count_update (p := Place.DestroyingAt i) f ht p
  simp only [destructions]
  omega

@[simp] theorem destructions_setLock (m : MdlMap) (i : LockId) (l : MdlLock)
    (f : ThreadId → Place) : destructions T (m.setLock i l) f = destructions T m f := rfl

/-! ## Sections that leave the threads where they are -/

namespace Inv

section

variable (h : Inv T r m f)

include h

theorem setPlace (ht : t ∈ T) (hp : PlaceOk r m p) (hfound : ∀ i, p.FoundAt i ↔ (f t).FoundAt i)
    (hdestroying : ∀ i, p.DestroyingAt i ↔ (f t).DestroyingAt i) : Inv T r m (update f t p) := by
  have hrefs : ∀ i, refs T (update f t p) i = refs T f i := fun i =>
    count_update_of_iff f ht (hfound i)
  constructor
  · exact h.sound
  · exact h.idle_update ht p
  · exact placeOk_update hp h.place
  · exact h.version
  · intro i
    rw [hrefs i]
    exact h.balance i
  · intro i
    exact (h.object i).congr Iff.rfl rfl (hrefs i)
      (congrArg (m.destroyCount i + ·) (count_update_of_iff f ht (hdestroying i)))

theorem setLock {l : MdlLock} (hm : (m.setLock i l).Sound)
    (hkey : i ∈ m.locks → l.key = (m.heap i).key)
    (hmark : l.isDestroyed = (m.heap i).isDestroyed) (hversion : l.version = (m.heap i).version)
    (husage : l.refUsage = (m.heap i).refUsage) (hrelease : l.refRelease = (m.heap i).refRelease) :
    Inv T r (m.setLock i l) f := by
  constructor
  · exact hm
  · exact h.idle
  · intro u
    refine (h.place u).mono le_rfl ?_
    intro j hj
    exact ⟨hj, MdlMap.setLock_induction
      (P := fun j l => j ∈ m.locks → l.key = (m.heap j).key) hkey (fun _ _ => rfl) j hj⟩
  · exact MdlMap.setLock_induction (P := fun j l => l.version = BitVec.ofNat 64 (r j))
      (hversion.trans (h.version i)) h.version
  · exact MdlMap.setLock_induction
      (P := fun j l => l.refUsage = l.refRelease + BitVec.ofNat 32 (refs T f j))
      (by rw [husage, hrelease]; exact h.balance i) h.balance
  · intro j
    exact (h.object j).congr Iff.rfl (MdlMap.setLock_same MdlLock.isDestroyed hmark j) rfl rfl

theorem setQueues (hi : i ∈ m.locks ∨ i < 2) (granted waiting : TicketList) :
    Inv T r (State.setQueues m i granted waiting) f :=
  h.setLock (h.sound.setLock rfl rfl rfl fun _ => hi) (fun _ => rfl) rfl rfl rfl rfl

theorem relink (hm : m'.Sound) (hheap : m'.heap = m.heap)
    (hnext : m'.nextLock = m.nextLock) (hcount : m'.destroyCount = m.destroyCount)
    (hlocks : ∀ j ∈ m.locks, j ∈ m'.locks) (hlinked : ∀ j, Linked m' j ↔ Linked m j) :
    Inv T r m' f := by
  constructor
  · exact hm
  · exact h.idle
  · exact fun u => (h.place u).mono hnext.ge fun j hj => ⟨hlocks j hj, by rw [hheap]⟩
  · exact hheap ▸ h.version
  · exact hheap ▸ h.balance
  · intro j
    exact (h.object j).congr (hlinked j) (by rw [hheap]) rfl (by simp only [destructions, hcount])

theorem alloc (key : MdlKey) (hm : m'.Sound)
    (hheap : m'.heap = (m.setLock m.nextLock (.create key)).heap)
    (hnext : m'.nextLock = m.nextLock + 1)
    (hlocks : ∀ j, j ≠ m.nextLock → (j ∈ m'.locks ↔ j ∈ m.locks))
    (hunused : m'.unusedLocksCache = m.unusedLocksCache)
    (hcount : ∀ j, j ≠ m.nextLock → m'.destroyCount j = m.destroyCount j)
    (hnew : ObjectOk T m' f m.nextLock) : Inv T (update r m.nextLock 0) m' f := by
  have hother : ∀ j, j ≠ m.nextLock → m'.heap j = m.heap j := fun j hj => by
    rw [hheap, MdlMap.heap_setLock_of_ne hj]
  have hself : m'.heap m.nextLock = .create key := by
    rw [hheap, MdlMap.heap_setLock_self]
  have hne : ∀ j ∈ m.locks, j ≠ m.nextLock := fun j hj => (h.sound.lt_next j (.inl hj)).2.ne
  constructor
  · exact hm
  · exact h.idle
  · intro u
    have hp : PlaceOk r m' (f u) := (h.place u).mono (by rw [hnext]; exact Nat.le_succ _)
      fun j hj => ⟨(hlocks j (hne j hj)).mpr hj, by rw [hother j (hne j hj)]⟩
    have hold := h.place u
    cases hpu : f u with
    | found key' j v =>
      rw [hpu] at hp hold
      have hj : j ≠ m.nextLock := hold.2.1.2.ne
      simpa [PlaceOk, hj] using hp
    | idle => trivial
    | searching key' => rw [hpu] at hp; exact hp
    | destroying j retry => rw [hpu] at hp; exact hp
  · intro j
    by_cases hj : j = m.nextLock
    · subst hj
      simp [hself, MdlLock.create]
    · simpa [hother j hj, hj] using h.version j
  · intro j
    by_cases hj : j = m.nextLock
    · subst hj
      rw [h.refs_eq_zero le_rfl]
      simp [hself, MdlLock.create]
    · rw [hother j hj]
      exact h.balance j
  · intro j
    by_cases hj : j = m.nextLock
    · exact hj ▸ hnew
    · refine (h.object j).congr ?_ (by rw [hother j hj]) rfl
        (by simp only [destructions, hcount j hj])
      have hlt : m'.nextLock ≤ j ↔ m.nextLock ≤ j := by
        rw [hnext]
        exact ⟨fun hle => (Nat.le_succ _).trans hle, fun hle => lt_of_le_of_ne hle (Ne.symm hj)⟩
      simp only [Linked, hlocks j hj, hunused, hlt]

theorem looked {p : Option LockId × MdlMap} (hp : MdlMap.Looked m key p)
    (hkey : MdlMap.preallocated? key = none) : ∃ r', Inv T r' p.2 f ∧ ∀ i, r' i ≤ r i := by
  have hsound := (hp.spec h.sound hkey).1
  have hzero : destructions T m f m.nextLock = 0 :=
    h.destructions_eq_zero (.inr (.inr (.inr le_rfl)))
  have hle : ∀ i, update r m.nextLock 0 i ≤ r i := by
    intro i
    by_cases hi : i = m.nextLock <;> simp [hi]
  cases hp with
  | found i hi hik => exact ⟨r, h, fun _ => le_rfl⟩
  | createFailed => exact ⟨r, h, fun _ => le_rfl⟩
  | reuseFailed i hu =>
    exact ⟨r, h.setLock hsound (fun hi => absurd hu (h.sound.disjoint i hi)) rfl rfl rfl rfl,
      fun _ => le_rfl⟩
  | reused i rest hu hnew hns =>
    have hmem : i ∈ m.unusedLocksCache := by simp [hu]
    have hreset := h.sound.reset (fun hl => h.sound.disjoint i hl hmem)
      (h.sound.lt_next i (.inr hmem)).1 (h.sound.isEmpty_of_unused hmem) key
    have hinv : Inv T r (m.reset i key) f :=
      h.setLock hreset (fun hi => absurd hmem (h.sound.disjoint i hi)) rfl rfl rfl rfl
    refine ⟨r, ?_, fun _ => le_rfl⟩
    refine hinv.relink hsound rfl rfl rfl (fun j hj => List.mem_cons_of_mem i hj) ?_
    simp only [Linked, MdlMap.reset, MdlMap.locks_setLock, MdlMap.unusedLocksCache_setLock, hu,
      List.mem_cons]
    tauto
  | created hnew =>
    refine ⟨_, h.alloc key hsound rfl rfl ?_ rfl (fun _ _ => rfl) ?_, hle⟩
    · intro j hj
      simp [hj]
    · exact .inl ⟨.inl List.mem_cons_self, by simp [MdlLock.create], hzero⟩
  | insertFailed =>
    refine ⟨_, h.alloc key hsound rfl rfl (fun _ _ => Iff.rfl) rfl ?_ ?_, hle⟩
    · intro j hj
      simp [MdlMap.destroy, MdlMap.setLock, hj]
    · refine .inr ⟨?_, .inl ⟨h.refs_eq_zero le_rfl, ?_⟩⟩
      · rintro (hl | hu | hlt | hle)
        · exact absurd rfl (h.sound.lt_next _ (.inl hl)).2.ne
        · exact absurd rfl (h.sound.lt_next _ (.inr hu)).2.ne
        · exact absurd h.sound.two_le_next hlt.not_ge
        · exact absurd hle (Nat.lt_succ_self _).not_ge
      · simp only [destructions, MdlMap.destroy, MdlMap.setLock, update_self] at hzero ⊢
        omega

/-! ## Sections that move a thread -/

theorem atLock (ht : t ∈ T) {l : MdlLock} (hm : (m.setLock i l).Sound)
    (hkey : l.key = (m.heap i).key) (hversion : l.version = (m.heap i).version)
    (hplace : PlaceOk r m p) (hfound : ∀ j, j ≠ i → (p.FoundAt j ↔ (f t).FoundAt j))
    (hdestroying : ∀ j, j ≠ i → (p.DestroyingAt j ↔ (f t).DestroyingAt j))
    (hrefs : l.refUsage = l.refRelease +
      BitVec.ofNat 32 (refs T (update f t p) i))
    (hobj : ObjectOk T (m.setLock i l) (update f t p) i) :
    Inv T r (m.setLock i l) (update f t p) := by
  have hkeys := MdlMap.setLock_same MdlLock.key hkey
  constructor
  · exact hm
  · exact h.idle_update ht p
  · intro u
    exact (placeOk_update hplace h.place u).mono le_rfl fun j hj => ⟨hj, hkeys j⟩
  · exact MdlMap.setLock_induction (P := fun j l => l.version = BitVec.ofNat 64 (r j))
      (hversion.trans (h.version i)) h.version
  · intro j
    by_cases hj : j = i
    · subst hj
      rwa [MdlMap.heap_setLock_self]
    · have hcount : refs T (update f t p) j = refs T f j :=
        count_update_of_iff f ht (hfound j hj)
      rw [MdlMap.heap_setLock_of_ne hj, hcount]
      exact h.balance j
  · intro j
    by_cases hj : j = i
    · exact hj ▸ hobj
    · refine (h.object j).congr Iff.rfl (by rw [MdlMap.heap_setLock_of_ne hj])
        (count_update_of_iff f ht (hfound j hj)) ?_
      exact congrArg (m.destroyCount j + ·) (count_update_of_iff f ht (hdestroying j hj))

theorem takeReference (hp : f t = .searching key) (hi : i ∈ m.locks) (hkey : (m.heap i).key = key) :
    Inv T r (m.takeReference i) (update f t (.found key i (m.heap i).version)) := by
  have ht : t ∈ T := h.mem_of_place (by simp [hp])
  have hrefs := refs_update ht f (.found key i (m.heap i).version) i
  have hdest := destructions_update ht m f (.found key i (m.heap i).version) i
  simp only [hp, foundAt_searching, foundAt_found, destroyingAt_searching, destroyingAt_found,
    if_true, if_false, Nat.add_zero] at hrefs hdest
  have hpt := h.place t
  rw [hp] at hpt
  refine h.atLock ht (MdlMap.takeReference_spec h.sound i).1 rfl rfl ?_ ?_ ?_ ?_ ?_
  · exact ⟨hpt, h.sound.lt_next i (.inl hi), r i, le_rfl, h.version i, fun _ => ⟨hi, hkey⟩⟩
  · intro j hj
    simp [hp, Ne.symm hj]
  · simp [hp]
  · rw [hrefs, BitVec.ofNat_add, ← BitVec.add_assoc, ← h.balance i]
    rfl
  · refine .inl ⟨.inl hi, ?_, hdest.trans (h.destructions_eq_zero (.inl hi))⟩
    simpa using h.sound.alive i (.inl hi)

theorem mem_of_version {v : BitVec 64} (hp : f t = .found key i v)
    (hr : r i < 2 ^ 64) (hv : (m.heap i).version = v) : i ∈ m.locks ∧ (m.heap i).key = key := by
  have hpt := h.place t
  rw [hp] at hpt
  obtain ⟨-, -, k, hk, rfl, hsame⟩ := hpt
  refine hsame ?_
  rw [h.version i] at hv
  have hnat := congrArg BitVec.toNat hv
  rw [BitVec.toNat_ofNat, BitVec.toNat_ofNat, Nat.mod_eq_of_lt hr,
    Nat.mod_eq_of_lt (hk.trans_lt hr)] at hnat
  exact hnat.symm

end

theorem refs_lt (hT : T.card < 2 ^ 32) (f : ThreadId → Place) (i : LockId) : refs T f i < 2 ^ 32 :=
  (count_le_card f).trans_lt hT

theorem refUsage_eq_iff {usage release : BitVec 32} (hT : T.card < 2 ^ 32)
    (h : usage = release + BitVec.ofNat 32 (refs T f i)) : usage = release ↔ refs T f i = 0 := by
  have hlt := refs_lt hT f i
  rw [h]
  constructor
  · intro heq
    have hzero : BitVec.ofNat 32 (refs T f i) = 0#32 := by simpa using heq
    have hnat := congrArg BitVec.toNat hzero
    rwa [BitVec.toNat_ofNat, Nat.mod_eq_of_lt hlt] at hnat
  · intro hzero
    simp [hzero]

def afterDrop (key : MdlKey) (i : LockId) : MdlMap.MoveResult → Place
  | .locked => .idle
  | .retry => .searching key
  | .destroyAndRetry => .destroying i (some key)

theorem not_foundAt_afterDrop (o : MdlMap.MoveResult) (j : LockId) :
    ¬ (afterDrop key i o).FoundAt j := by
  cases o <;> exact id

theorem dropReference_result (m : MdlMap) (i : LockId) (v : BitVec 64) :
    match (m.dropReference i v).1 with
    | .locked => (m.heap i).version = v
    | .retry => (m.heap i).version ≠ v ∧
        ((m.heap i).isDestroyed = true → (m.heap i).refUsage ≠ (m.heap i).refRelease + 1)
    | .destroyAndRetry => (m.heap i).isDestroyed = true ∧
        (m.heap i).refUsage = (m.heap i).refRelease + 1 := by
  simp only [MdlMap.dropReference]
  split
  next o ho =>
    split at ho
    next hv => exact hv
    next => split at ho <;> cases ho
  next o ho =>
    split at ho
    next => cases ho
    next hv =>
      split at ho
      next => cases ho
      next hn => exact ⟨hv, by simpa using hn⟩
  next o ho =>
    split at ho
    next => cases ho
    next hv =>
      split at ho
      next hn => simpa using hn
      next => cases ho

theorem dropReference (h : Inv T r m f) (hT : T.card < 2 ^ 32) {v : BitVec 64}
    (hp : f t = .found key i v) (hr : r i < 2 ^ 64) :
    Inv T r (m.dropReference i v).2
      (update f t (afterDrop key i (m.dropReference i v).1)) := by
  have ht : t ∈ T := h.mem_of_place (by simp [hp])
  have hpos : 0 < refs T f i := count_pos ht (by simp [hp])
  have hpt := h.place t
  rw [hp] at hpt
  have hresult := dropReference_result m i v
  have hsound := (MdlMap.dropReference_spec h.sound i v).1
  have hmap : (m.dropReference i v).2 = m.setLock i
      { m.heap i with refRelease := (m.heap i).refRelease + 1 } := rfl
  generalize (m.dropReference i v).1 = o at hresult ⊢
  have hrefs := refs_update ht f (afterDrop key i o) i
  have hdest := destructions_update ht m f (afterDrop key i o) i
  simp only [hp, foundAt_found, not_foundAt_afterDrop, destroyingAt_found, if_true, if_false,
    Nat.add_zero] at hrefs hdest
  have hbalance : (m.heap i).refUsage = (m.heap i).refRelease + 1 + BitVec.ofNat 32
      (refs T (update f t (afterDrop key i o)) i) := by
    rw [h.balance i, ← hrefs, BitVec.ofNat_add, BitVec.add_assoc, BitVec.add_comm 1]
    rfl
  have hlast := refUsage_eq_iff hT hbalance
  refine h.atLock ht hsound rfl rfl ?_ ?_ ?_ hbalance ?_
  · cases o with
    | locked => trivial
    | retry => exact hpt.1
    | destroyAndRetry => rintro _ ⟨⟩; exact hpt.1
  · intro j hj
    simp [not_foundAt_afterDrop, hp, Ne.symm hj]
  · intro j hj
    cases o <;> simp [afterDrop, hp, Ne.symm hj]
  · have hmark : ((m.setLock i
        { m.heap i with refRelease := (m.heap i).refRelease + 1 }).heap i).isDestroyed =
        (m.heap i).isDestroyed := by
      rw [MdlMap.heap_setLock_self]
    unfold ObjectOk
    rw [hmark]
    rcases h.object i with ⟨hlinked, halive, hzero⟩ | ⟨hn, ⟨hnone, -⟩ | ⟨-, hzero, hdead⟩⟩
    · refine .inl ⟨hlinked, halive, hdest.trans ?_⟩
      cases o with
      | locked => simpa [afterDrop] using hzero
      | retry => simpa [afterDrop] using hzero
      | destroyAndRetry => simp [halive] at hresult
    · exact absurd hnone hpos.ne'
    · -- The object was removed, so the thread has seen its version change.
      refine .inr ⟨hn, ?_⟩
      cases o with
      | locked => exact absurd (.inl (h.mem_of_version hp hr hresult).1) hn
      | retry =>
        have hmore := mt hlast.mpr (hresult.2 hdead)
        exact .inr ⟨Nat.pos_of_ne_zero hmore, by simpa [afterDrop, hzero] using hdest, hdead⟩
      | destroyAndRetry =>
        exact .inl ⟨hlast.mp hresult.2, by simpa [afterDrop, hzero] using hdest⟩

section Remove

variable {l : MdlLock}

theorem version_removed (h : Inv T r m f) (hl : l.version = (m.heap i).version + 1) (j : LockId) :
    ((m.setLock i l).heap j).version = BitVec.ofNat 64 (update r i (r i + 1) j) := by
  by_cases hj : j = i
  · subst hj
    rw [MdlMap.heap_setLock_self, update_self, hl, h.version j, BitVec.ofNat_add]
    rfl
  · rw [MdlMap.heap_setLock_of_ne hj, update_of_ne hj]
    exact h.version j

theorem refs_removed (h : Inv T r m f) (husage : l.refUsage = (m.heap i).refUsage)
    (hrelease : l.refRelease = (m.heap i).refRelease) (j : LockId) :
    ((m.setLock i l).heap j).refUsage =
      ((m.setLock i l).heap j).refRelease + BitVec.ofNat 32 (refs T f j) :=
  MdlMap.setLock_induction
    (P := fun j l => l.refUsage = l.refRelease + BitVec.ofNat 32 (refs T f j))
    (by rw [husage, hrelease]; exact h.balance i) h.balance j

theorem mem_erase_of_ne (m : MdlMap) (l : MdlLock) (j : LockId) (hj : j ∈ m.locks) (hji : j ≠ i) :
    j ∈ m.locks.erase i ∧ ((m.setLock i l).heap j).key = (m.heap j).key :=
  ⟨(List.mem_erase_of_ne hji).mpr hj, by rw [MdlMap.heap_setLock_of_ne hji]⟩

theorem cached (h : Inv T r m f) (hl : i ∈ m.locks) (hheap : m'.heap = (m.setLock i
      { m.heap i with version := (m.heap i).version + 1 }).heap) (hm : m'.Sound)
    (hnext : m'.nextLock = m.nextLock) (hcount : m'.destroyCount = m.destroyCount)
    (hlocks : m'.locks = m.locks.erase i)
    (hunused : m'.unusedLocksCache = i :: m.unusedLocksCache) :
    Inv T (update r i (r i + 1)) m' f := by
  constructor
  · exact hm
  · exact h.idle
  · exact fun u => (h.place u).removed hnext (by rw [hlocks, hheap]; exact mem_erase_of_ne m _)
  · rw [hheap]
    exact h.version_removed rfl
  · rw [hheap]
    exact h.refs_removed rfl rfl
  · intro j
    refine (h.object j).congr ?_ ?_ rfl (by simp only [destructions, hcount])
    · by_cases hj : j = i
      · subst hj
        simp [Linked, hl, hunused]
      · simp only [Linked, hlocks, hunused, hnext, List.mem_erase_of_ne hj, List.mem_cons, hj,
          false_or]
    · rw [hheap]
      exact MdlMap.setLock_same MdlLock.isDestroyed (by rfl) j

theorem marked (h : Inv T r m f) (hl : i ∈ m.locks) {f' : ThreadId → Place}
    (hheap : m'.heap = (m.setLock i
      { m.heap i with version := (m.heap i).version + 1, isDestroyed := true }).heap)
    (hm : m'.Sound) (hnext : m'.nextLock = m.nextLock)
    (hcount : m'.destroyCount = m.destroyCount) (hlocks : m'.locks = m.locks.erase i)
    (hunused : m'.unusedLocksCache = m.unusedLocksCache)
    (hidle : ∀ u, u ∉ T → f' u = .idle) (hplace : ∀ u, PlaceOk r m (f' u))
    (hrefs : ∀ j, refs T f' j = refs T f j)
    (hdest : ∀ j, j ≠ i → destructions T m f' j = destructions T m f j)
    (hlast : (refs T f i = 0 ∧ destructions T m f' i = 1) ∨
      (0 < refs T f i ∧ destructions T m f' i = 0)) :
    Inv T (update r i (r i + 1)) m' f' := by
  obtain ⟨hge, hlt⟩ := h.sound.lt_next i (.inl hl)
  have hdest' : ∀ j, destructions T m' f' j = destructions T m f' j := fun j => by
    simp only [destructions, hcount]
  constructor
  · exact hm
  · exact hidle
  · exact fun u => (hplace u).removed hnext (by rw [hlocks, hheap]; exact mem_erase_of_ne m _)
  · rw [hheap]
    exact h.version_removed rfl
  · intro j
    rw [hheap, hrefs j]
    refine h.refs_removed ?_ ?_ j
    · rfl
    · rfl
  · intro j
    by_cases hj : j = i
    · subst hj
      refine .inr ⟨?_, ?_⟩
      · rintro (hmem | hu | hsmall | hbig)
        · exact h.sound.locks_nodup.not_mem_erase (hlocks ▸ hmem)
        · exact h.sound.disjoint j hl (hunused ▸ hu)
        · exact absurd hge hsmall.not_ge
        · exact absurd (hnext ▸ hbig) hlt.not_ge
      · rw [hrefs j, hdest' j]
        exact hlast.imp id fun hpos => ⟨hpos.1, hpos.2, by simp [hheap]⟩
    · refine (h.object j).congr ?_ ?_ (hrefs j) ((hdest' j).trans (hdest j hj))
      · simp only [Linked, hlocks, hunused, hnext, List.mem_erase_of_ne hj]
      · rw [hheap, MdlMap.heap_setLock_of_ne hj]

theorem removed (h : Inv T r m f) (hT : T.card < 2 ^ 32) (ht : t ∈ T) (hidle : f t = .idle)
    (hempty : (m.heap i).isEmpty = true) (hi : i ∈ m.locks ∨ i < 2) {p : Bool × MdlMap}
    (hp : MdlMap.Removed m i p) :
    ∃ r', (∀ j, r' j ≤ r j + 1) ∧
      Inv T r' p.2 (if p.1 then update f t (.destroying i none) else f) := by
  have hsound := (hp.spec h.sound hempty hi).1
  have hle : ∀ j, update r i (r i + 1) j ≤ r j + 1 := by
    intro j
    by_cases hj : j = i <;> simp [hj]
  have hl : MdlMap.preallocated? (m.heap i).key = none → i ∈ m.locks := fun hpre =>
    hi.resolve_right fun hlt => by simp [h.sound.preallocated?_key hlt] at hpre
  cases hp with
  | preallocated hpre => exact ⟨r, fun j => Nat.le_succ _, h⟩
  | cached hpre hns => exact ⟨_, hle, h.cached (hl hpre) rfl hsound rfl rfl rfl rfl⟩
  | marked hpre =>
    have hzero := h.destructions_eq_zero (.inl (hl hpre))
    have hnone := refUsage_eq_iff hT (h.balance i)
    refine ⟨_, hle, ?_⟩
    split
    next heq =>
      have hcount := destructions_update ht m f (.destroying i none) i
      simp only [hidle, destroyingAt_idle, destroyingAt_destroying, if_true, if_false] at hcount
      refine h.marked (hl hpre) rfl hsound rfl rfl rfl rfl (h.idle_update ht _)
        (placeOk_update (by simp [PlaceOk]) h.place) ?_ ?_ ?_
      · exact fun j => count_update_of_iff f ht (by simp [hidle])
      · intro j hj
        exact congrArg (m.destroyCount j + ·)
          (count_update_of_iff f ht (by simp [hidle, Ne.symm hj]))
      · exact .inl ⟨hnone.mp (by simpa using heq), by omega⟩
    next hne =>
      refine h.marked (hl hpre) rfl hsound rfl rfl rfl rfl h.idle h.place (fun _ => rfl)
        (fun _ _ => rfl) (.inr ⟨?_, hzero⟩)
      exact Nat.pos_of_ne_zero (mt hnone.mpr (by simpa using hne))

end Remove

theorem destroy (h : Inv T r m f) {retry : Option MdlKey} (hp : f t = .destroying i retry)
    (hplace : PlaceOk r m p) (hfound : ∀ j, ¬ p.FoundAt j) (hdestroying : ∀ j, ¬ p.DestroyingAt j) :
    Inv T r (m.destroy i) (update f t p) := by
  have ht : t ∈ T := h.mem_of_place (by simp [hp])
  have hrefs : ∀ j, refs T (update f t p) j = refs T f j := fun j =>
    count_update_of_iff f ht (by simp [hp, hfound])
  have hdest : ∀ j, destructions T (m.destroy i) (update f t p) j =
      destructions T m f j := by
    intro j
    have hcount := destructions_update ht m f p j
    simp only [hp, destroyingAt_destroying, hdestroying, if_false, Nat.add_zero] at hcount
    by_cases hj : j = i
    · subst hj
      simp only [if_true] at hcount
      rw [← hcount]
      simp only [destructions, MdlMap.destroy, update_self]
      omega
    · simp only [Ne.symm hj, if_false, Nat.add_zero] at hcount
      rw [← hcount]
      simp only [destructions, MdlMap.destroy, update_of_ne hj]
  constructor
  · exact h.sound.destroy i
  · exact h.idle_update ht p
  · exact placeOk_update hplace h.place
  · exact h.version
  · intro j
    rw [hrefs j]
    exact h.balance j
  · intro j
    exact (h.object j).congr Iff.rfl rfl (hrefs j) (hdest j)

end Inv

end Protocol

end MySQL.Mdl
