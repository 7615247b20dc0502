import MySQL.Lib.System
import MySQL.Semisync.ActiveTranxList

/-!
# Runs of insertions and clears

After any calls the list and the hash table hold the positions that were inserted and not removed.
-/

namespace MySQL.Semisync

open List

open MySQL.Lib

namespace ActiveTranx

/-- `ActiveTranx::ActiveTranx`: only the table is set, and the memory is as it was. -/
def new (maxConnections : ℕ) (memory : ActiveTranx) : ActiveTranx :=
  { memory with
    numEntries := maxConnections * 2
    allocator := TranxNodeAllocator.new maxConnections
    trxFront := none
    trxRear := none
    trxHtb := fun idx => if idx < maxConnections * 2 then none else memory.trxHtb idx }

theorem holds_new {maxConnections : ℕ} (hpos : 0 < maxConnections) (memory : ActiveTranx) :
    (new maxConnections memory).Holds [] := by
  refine ⟨Nat.mul_pos hpos (by decide), TranxNodeAllocator.wf_new _, nil_sublist _, rfl, rfl,
    List.Pairwise.nil, ?_⟩
  intro i hi
  refine ⟨[], if_pos hi, nodup_nil, fun a => ?_⟩
  exact iff_of_false not_mem_nil fun ha => not_mem_nil ha.1

/-- A call, with the block that `my_malloc` would give. -/
inductive Call
  | insert (malloc : Option ℕ) (p : LogPos)
  | clear (upTo : Option LogPos)

/-- What was called before, with the result of an insertion. -/
inductive Event
  | inserted (p : LogPos) (result : ℤ)
  | cleared (upTo : Option LogPos)

def Held : List Event → LogPos → Prop
  | [], _ => False
  | .inserted q result :: events, p => result = 0 ∧ p = q ∨ Held events p
  | .cleared upTo :: events, p => Held events p ∧ ¬Cleared upTo p

/-- `my_malloc` gives no block that is in use. -/
def Fresh (s : ActiveTranx) (malloc : Option ℕ) : Prop :=
  ∀ b ∈ malloc, b ∉ s.allocator.usedBlocks ++ s.allocator.freeBlocks

instance (s : ActiveTranx) (malloc : Option ℕ) : Decidable (s.Fresh malloc) :=
  inferInstanceAs (Decidable (∀ b ∈ malloc, _))

def step (t : ActiveTranx × List Event) : Call → Option (ActiveTranx × List Event)
  | .insert malloc p =>
    if t.1.Fresh malloc then
      some ((t.1.insertTranxNode malloc p).1,
        .inserted p (t.1.insertTranxNode malloc p).2 :: t.2)
    else none
  | .clear upTo => some (t.1.clearActiveTranxNodes upTo, .cleared upTo :: t.2)

def system : System (ActiveTranx × List Event) Call where
  init t := ∃ maxConnections memory, 0 < maxConnections ∧ t = (new maxConnections memory, [])
  step := step

variable {s : ActiveTranx} {l : List NodeAddr} {events : List Event} {t : ActiveTranx × List Event}

def ShortNames (events : List Event) : Prop :=
  ∀ p result, Event.inserted p result ∈ events → p.name.length < 512

theorem storedPos_eq {p : LogPos} (h : p.name.length < 512) : storedPos p = p := by
  rw [storedPos, take_of_length_le (by omega)]

def Tracks (t : ActiveTranx × List Event) : Prop :=
  ∃ l, t.1.Holds l ∧ (ShortNames t.2 → ∀ p, p ∈ l.map t.1.logPos ↔ Held t.2 p)

theorem tracks_init (h : system.init t) : Tracks t := by
  obtain ⟨maxConnections, memory, hpos, rfl⟩ := h
  exact ⟨[], holds_new hpos memory, fun _ p => iff_of_false not_mem_nil id⟩

theorem Tracks.insert (h : Tracks t) {malloc : Option ℕ} (hfresh : t.1.Fresh malloc)
    (p : LogPos) : Tracks ((t.1.insertTranxNode malloc p).1,
      .inserted p (t.1.insertTranxNode malloc p).2 :: t.2) := by
  obtain ⟨l, hholds, hheld⟩ := h
  have heffect := hholds.insertTranxNode (p := p) hfresh
  rcases hinsert : t.1.insertTranxNode malloc p with ⟨s', result⟩
  rw [hinsert] at heffect
  cases heffect with
  | refused hholds' hsame hnum hreason =>
    refine ⟨l, hholds', fun hshort q => ?_⟩
    have hold : l.map s'.logPos = l.map t.1.logPos :=
      map_congr_left fun a ha => (hsame.nodes a ha).1
    rw [hold, hheld fun q r hq => hshort q r (mem_cons_of_mem _ hq)]
    exact (or_iff_right fun h => absurd h.1 (show ¬(-1 : ℤ) = 0 by decide)).symm
  | appended hholds' hnum hnew hold hlast =>
    refine ⟨_, hholds', fun hshort q => ?_⟩
    have hstored : storedPos p = p := storedPos_eq (hshort p 0 mem_cons_self)
    rw [map_append, map_congr_left hold, mem_append,
      hheld fun q r hq => hshort q r (mem_cons_of_mem _ hq), map_singleton, hnew,
      hstored, mem_singleton, or_comm]
    exact or_congr_left (and_iff_right rfl).symm

theorem Tracks.clear (h : Tracks t) (upTo : Option LogPos) :
    Tracks (t.1.clearActiveTranxNodes upTo, .cleared upTo :: t.2) := by
  obtain ⟨l, hholds, hheld⟩ := h
  obtain ⟨hholds', hpos, -⟩ := hholds.clearActiveTranxNodes upTo
  refine ⟨_, hholds', fun hshort p => ?_⟩
  rw [hpos, Held, ← hheld fun q r hq => hshort q r (mem_cons_of_mem _ hq), List.mem_map,
    List.mem_map]
  constructor
  · rintro ⟨a, ha, rfl⟩
    obtain ⟨ha, hkept⟩ := mem_filter.1 ha
    exact ⟨⟨a, ha, rfl⟩, of_decide_eq_true hkept⟩
  · rintro ⟨⟨a, ha, rfl⟩, hkept⟩
    exact ⟨a, mem_filter.2 ⟨ha, decide_eq_true hkept⟩, rfl⟩

theorem tracks_of_reachable (h : system.Reachable t) : Tracks t := by
  refine h.invariant (fun _ => tracks_init) fun t c t' _ htracks hstep => ?_
  cases c with
  | insert malloc p =>
    simp only [system, step] at hstep
    split_ifs at hstep with hfresh
    cases hstep
    exact htracks.insert hfresh p
  | clear upTo =>
    cases hstep
    exact htracks.clear upTo

/-- After any insertions and clears there is a list from the front to the rear in the order of the
binary log, and the chains of the hash table hold its nodes.  If all names are short, its positions
are those that were inserted and not removed.  A clear removes the positions up to its own, and an
insertion with an error changes nothing. -/
theorem activeTranx_holds {t : ActiveTranx × List Event} (hreach : system.Reachable t) :
    ∃ l, t.1.Holds l ∧
      l.Pairwise (fun a b => (t.1.logPos a).compare (t.1.logPos b) = .lt) ∧
      (ShortNames t.2 → ∀ p, t.1.isTranxEndPos p = true ↔ Held t.2 p) ∧
      (∀ upTo, (t.1.clearActiveTranxNodes upTo).Holds
          (l.filter fun a => ¬Cleared upTo (t.1.logPos a)) ∧
        (t.1.clearActiveTranxNodes upTo).logPos = t.1.logPos) ∧
      ∀ malloc p, t.1.Fresh malloc → (t.1.insertTranxNode malloc p).2 ≠ 0 →
        (t.1.insertTranxNode malloc p).1.Holds l ∧
          t.1.Unchanged l (t.1.insertTranxNode malloc p).1 := by
  obtain ⟨l, hholds, hheld⟩ := tracks_of_reachable hreach
  refine ⟨l, hholds, ?_, fun hshort p => ?_, fun upTo => ?_, fun malloc p hfresh hresult => ?_⟩
  · exact hholds.increasing.imp LogPos.compare_eq_lt.2
  · rw [hholds.isTranxEndPos_iff, hheld hshort]
  · exact ⟨(hholds.clearActiveTranxNodes upTo).1, (hholds.clearActiveTranxNodes upTo).2.1⟩
  · have heffect := hholds.insertTranxNode (p := p) hfresh
    rcases hinsert : t.1.insertTranxNode malloc p with ⟨s', result⟩
    rw [hinsert] at heffect hresult
    cases heffect with
    | refused hholds' hsame hnum hreason => exact ⟨hholds', hsame⟩
    | appended hholds' hnum hnew hold hlast => exact absurd rfl hresult

def zeroMemory : ActiveTranx where
  numEntries := 0
  allocator := TranxNodeAllocator.new 0
  logPos _ := ⟨[], 0⟩
  next _ := none
  hashNext _ := none
  trxFront := none
  trxRear := none
  trxHtb _ := none

/-- Three insertions into a table of two entries, and a clear up to the first position, whose node
is behind that of the third one in a chain. -/
def chainCalls : List Call :=
  [.insert (some 0) ⟨[97], 4⟩, .insert none ⟨[97], 5⟩, .insert none ⟨[97], 6⟩,
    .clear (some ⟨[97], 4⟩)]

theorem activeTranx_holds_chain :
    getHashValue 2 ⟨[97], 4⟩ = getHashValue 2 ⟨[97], 6⟩ ∧
    ∃ t l, system.run (new 1 zeroMemory, []) chainCalls = some t ∧ t.1.Holds l ∧
      l.map t.1.logPos = [⟨[97], 5⟩, ⟨[97], 6⟩] ∧
      (∀ p, t.1.isTranxEndPos p = true ↔ Held t.2 p) ∧
      (t.1.insertTranxNode none ⟨[97], 5⟩).2 = -1 ∧
      (t.1.insertTranxNode none ⟨[97], 5⟩).1.Holds l := by
  have hstart : system.Reachable (new 1 zeroMemory, []) := .start ⟨1, zeroMemory, Nat.one_pos, rfl⟩
  refine ⟨by decide +kernel, _, [⟨0, 1⟩, ⟨0, 2⟩], rfl, ?_⟩
  have hrun := hstart.run (show system.run _ chainCalls = some _ from rfl)
  obtain ⟨l, hholds, -, hheld, -, hrefused⟩ := activeTranx_holds hrun
  obtain rfl := hholds.list.unique (m := [⟨0, 1⟩, ⟨0, 2⟩])
    ⟨by decide +kernel, by decide +kernel, show _ = _ by decide +kernel⟩
  refine ⟨hholds, by decide +kernel, hheld ?_, by decide +kernel, (hrefused none _ ?_ ?_).1⟩
  · intro p result hmem
    simp only [mem_cons, reduceCtorEq, Event.inserted.injEq, false_or, not_mem_nil,
      or_false] at hmem
    rcases hmem with ⟨rfl, -⟩ | ⟨rfl, -⟩ | ⟨rfl, -⟩
    all_goals decide
  · decide +kernel
  · decide +kernel

/-- A position with a name of 512 bytes is not found. -/
theorem isTranxEndPos_long_name :
    ∃ t p, system.Reachable t ∧ Held t.2 p ∧ t.1.isTranxEndPos p = false := by
  let p : LogPos := ⟨replicate 512 97, 4⟩
  have hholds : (new 1 zeroMemory).Holds [] := holds_new Nat.one_pos zeroMemory
  have hfresh : (new 1 zeroMemory).Fresh (some 0) := fun _ _ => not_mem_nil
  have heffect := hholds.insertTranxNode (p := p) hfresh
  rcases hinsert : (new 1 zeroMemory).insertTranxNode (some 0) p with ⟨s', result⟩
  rw [hinsert] at heffect
  cases heffect with
  | refused hholds' hsame hnum hreason =>
    rcases hreason with hnone | ⟨a, ha, -⟩
    · exact absurd hnone (by decide)
    · exact absurd ha not_mem_nil
  | @appended s' a hholds' hnum hnew hold hlast =>
    refine ⟨(s', [.inserted p 0]), p, ?_, Or.inl ⟨rfl, rfl⟩, ?_⟩
    · refine .next (a := .insert (some 0) p) (.start ⟨1, zeroMemory, Nat.one_pos, rfl⟩) ?_
      simp only [system, step, if_pos hfresh, hinsert]
    · rw [← Bool.not_eq_true, hholds'.isTranxEndPos_iff, nil_append, map_singleton,
        hnew, mem_singleton]
      intro heq
      have hlong : p.name.length = 512 := length_replicate
      have hcut : (storedPos p).name.length ≤ 511 := length_take_le 511 p.name
      rw [← heq] at hcut
      omega

end ActiveTranx

end MySQL.Semisync
