import MySQL.Semisync.MasterCommit

/-!
# The wake-up of the sessions

A session whose position is covered by a reply is signalled, as long as `resetMaster` does not
forget the waiting sessions.  There are fewer than `2 ^ 64` sessions, so that their counter does not
wrap.
-/

namespace MySQL.Semisync

open MySQL.Lib Function

namespace Master

variable {n : ℕ} {m m' : Master n} {sid : Fin n} {p : LogPos}

/-- Every waiting session with a reply at or after its position is signalled.  The reply is the
last one, or it has arrived during the wait. -/
def NoLostWakeUp (m : Master n) : Prop :=
  ∀ sid w, m.sessions sid = some w →
    (w.acked = true ∨ m.replyInited = true ∧ w.pos ≤ m.reply) → w.signalled = true

/-- The sessions that wait for the condition. -/
def sleepers (m : Master n) : Finset (Fin n) := Finset.univ.filter fun sid => m.sessions sid ≠ none

/-- The counter is the number of the waiting sessions, and the smallest position is kept for those
that are not signalled. -/
structure Watched (m : Master n) : Prop where
  counted : m.waitSessions = m.sleepers.card
  lowest : ∀ sid w, m.sessions sid = some w → w.signalled = false →
    m.waitInited = true ∧ m.wait ≤ w.pos
  woken : m.NoLostWakeUp

theorem reportReplyBinlog_of_release (h : 0 < m.waitSessions ∧ m.wait ≤ m.newReply p) :
    ∃ state, m.reportReplyBinlog p =
      condBroadcast { (m.noteReply p).acknowledge p with state := state, waitInited := false } := by
  obtain ⟨state, hreport⟩ := reportReplyBinlog_eq m p
  refine ⟨state, ?_⟩
  rw [hreport, releaseThreads, noteReply_eq, noteReply_eq, if_pos]
  · rfl
  · refine ⟨h.1, fun hlt => ?_⟩
    exact absurd h.2 (not_le.2 (LogPos.compare_eq_lt.1 hlt))

theorem reportReplyBinlog_of_keep (h : ¬(0 < m.waitSessions ∧ m.wait ≤ m.newReply p)) :
    ∃ state, m.reportReplyBinlog p = { (m.noteReply p).acknowledge p with state := state } := by
  obtain ⟨state, hreport⟩ := reportReplyBinlog_eq m p
  refine ⟨state, ?_⟩
  rw [hreport, releaseThreads, noteReply_eq, noteReply_eq, if_neg]
  · rfl
  · rintro ⟨hpos, hle⟩
    exact h ⟨hpos, not_lt.1 fun hlt => hle (LogPos.compare_eq_lt.2 hlt)⟩

theorem mem_sleepers : sid ∈ m.sleepers ↔ m.sessions sid ≠ none := by
  rw [sleepers, Finset.mem_filter, and_iff_right (Finset.mem_univ sid)]

theorem sleepers_map (f : Sleeper → Sleeper) (hm : m'.sessions = fun i => (m.sessions i).map f) :
    m'.sleepers = m.sleepers := by
  ext i
  rw [mem_sleepers, mem_sleepers, hm, ne_eq, ne_eq, Option.map_eq_none_iff]

/-- After a broadcast only the counter matters. -/
theorem watched_condBroadcast (h : m.waitSessions = m.sleepers.card) : m.condBroadcast.Watched := by
  have hall (sid w) (hw : m.condBroadcast.sessions sid = some w) : w.signalled = true := by
    obtain ⟨v, -, rfl⟩ := Option.map_eq_some_iff.1 hw
    rfl
  refine ⟨?_, fun sid w hw hsignalled => ?_, fun sid w hw _ => hall sid w hw⟩
  · rw [sleepers_map _ rfl]
    exact h
  · rw [hall sid w hw] at hsignalled
    cases hsignalled

theorem Watched.switchOff (h : m.Watched) : m.switchOff.Watched := watched_condBroadcast h.counted

theorem Watched.reportReplyBinlog (h : m.Watched) : (m.reportReplyBinlog p).Watched := by
  by_cases hrelease : 0 < m.waitSessions ∧ m.wait ≤ m.newReply p
  · obtain ⟨state, hreport⟩ := reportReplyBinlog_of_release hrelease
    rw [hreport, noteReply_eq]
    exact watched_condBroadcast (h.counted.trans (congrArg _ (sleepers_map _ rfl).symm))
  · obtain ⟨state, hreport⟩ := reportReplyBinlog_of_keep hrelease
    rw [hreport, noteReply_eq]
    refine ⟨h.counted.trans (congrArg _ (sleepers_map _ rfl).symm), ?_, ?_⟩
    · intro sid w hw hsignalled
      obtain ⟨v, hv, rfl⟩ := Option.map_eq_some_iff.1 hw
      exact h.lowest sid v hv hsignalled
    · intro sid w hw hcovered
      obtain ⟨v, hv, rfl⟩ := Option.map_eq_some_iff.1 hw
      by_contra hsignalled
      rw [Bool.not_eq_true] at hsignalled
      -- the session is counted, and the smallest position is not behind its own
      have hpos : 0 < m.waitSessions := by
        rw [h.counted, Finset.card_pos]
        exact ⟨sid, mem_sleepers.2 (hv ▸ Option.some_ne_none v)⟩
      have hle : ¬v.pos ≤ m.newReply p := fun hle =>
        hrelease ⟨hpos, (h.lowest sid v hv hsignalled).2.trans hle⟩
      have hacked : v.acked = false := by
        rw [← Bool.not_eq_true]
        intro hacked
        exact absurd ((h.woken sid v hv (Or.inl hacked)).symm.trans hsignalled) Bool.noConfusion
      have hnew : ¬v.pos ≤ p := fun hp => hle (hp.trans le_newReply)
      rcases hcovered with hcovered | ⟨-, hcovered⟩
      · simp [hacked, hnew] at hcovered
      · exact hle hcovered

theorem session_of_update {f : Fin n → Option Sleeper} {w : Option Sleeper} {v : Sleeper}
    {i : Fin n} (h : update f sid w i = some v) : w = some v ∨ f i = some v := by
  by_cases hi : i = sid
  · subst hi
    rw [update_self] at h
    exact Or.inl h
  · rw [update_of_ne hi] at h
    exact Or.inr h

/-- The session leaves its wait. -/
def without (m : Master n) (sid : Fin n) : Master n :=
  { m with sessions := update m.sessions sid none }

theorem commitPass_without : (m.without sid).commitPass sid p = m.commitPass sid p := by
  simp only [commitPass, without, noteWait_eq, lowest, endCommit, update_idem]

theorem sleepers_without : (m.without sid).sleepers = m.sleepers.erase sid := by
  ext i
  rw [Finset.mem_erase, mem_sleepers, mem_sleepers, without]
  by_cases hi : i = sid
  · simp [hi]
  · simp [hi]

theorem Watched.leaveWait {w : Sleeper} (h : m.Watched) (hw : m.sessions sid = some w) :
    (m.leaveWait.without sid).Watched := by
  have hmem : sid ∈ m.sleepers := mem_sleepers.2 (hw ▸ Option.some_ne_none w)
  have hpos : 0 < m.sleepers.card := Finset.card_pos.2 ⟨sid, hmem⟩
  refine ⟨?_, fun i v hv => h.lowest i v ((session_of_update hv).resolve_left nofun),
    fun i v hv => h.woken i v ((session_of_update hv).resolve_left nofun)⟩
  have hcount : m.leaveWait.waitSessions = m.sleepers.card - 1 := by
    simp only [Master.leaveWait, h.counted]
    exact if_neg hpos.ne'
  rw [sleepers_without]
  exact hcount.trans (Finset.card_erase_of_mem hmem).symm

theorem Watched.commitPass (hn : n < 18446744073709551616) (h : m.Watched)
    (hnone : m.sessions sid = none) (p : LogPos) : (m.commitPass sid p).Watched := by
  have hsame : update m.sessions sid none = m.sessions := by rw [← hnone, update_eq_self]
  have heffect := m.commitPass_effect sid p
  generalize m.commitPass sid p = m' at heffect ⊢
  cases heffect with
  | off hstate =>
    rw [hsame]
    exact ⟨h.counted, h.lowest, h.woken⟩
  | replied hstate hinited hle =>
    rw [hsame]
    exact ⟨h.counted, h.lowest, h.woken⟩
  | waits hstate hahead =>
    have hnot : sid ∉ m.sleepers := fun hmem => mem_sleepers.1 hmem hnone
    refine ⟨?_, fun i w hw hsignalled => ⟨rfl, ?_⟩, fun i w hw hcovered => ?_⟩
    · have hcard : (insert sid m.sleepers).card = m.sleepers.card + 1 :=
        Finset.card_insert_of_notMem hnot
      have hlt : m.sleepers.card + 1 ≤ n := hcard ▸ (card_finset_fin_le _)
      refine Eq.trans (b := (insert sid m.sleepers).card) ?_ (congrArg _ ?_)
      · rw [hcard, h.counted]
        exact Nat.mod_eq_of_lt (by omega)
      · ext i
        rw [Finset.mem_insert, mem_sleepers, mem_sleepers]
        by_cases hi : i = sid
        · simp [hi]
        · simp [hi]
    · rcases session_of_update hw with hw | hw
      · obtain rfl := Option.some.inj hw
        unfold Master.lowest
        split_ifs
        · exact min_le_left _ _
        · exact le_rfl
      · obtain ⟨hinited, hle⟩ := h.lowest i w hw hsignalled
        rw [Master.lowest, if_pos hinited]
        exact (min_le_right _ _).trans hle
    · rcases session_of_update hw with hw | hw
      · obtain rfl := Option.some.inj hw
        rcases hcovered with hacked | ⟨hinited, hle⟩
        · exact absurd hacked Bool.false_ne_true
        · exact absurd hle (not_le.2 (hahead hinited))
      · exact h.woken i w hw hcovered

theorem Watched.writeTranxInBinlog (h : m.Watched) (malloc : Option ℕ) (p : LogPos) :
    (m.writeTranxInBinlog malloc p).Watched := by
  obtain ⟨inited, pos, hcommit⟩ := noteCommit_eq (m := m) (p := p)
  unfold Master.writeTranxInBinlog
  simp only [hcommit]
  split_ifs
  · exact watched_condBroadcast h.counted
  · exact ⟨h.counted, h.lowest, h.woken⟩
  · exact ⟨h.counted, h.lowest, h.woken⟩

theorem watched_of_quiet (hquiet : ∀ sid, m.sessions sid = none) (hzero : m.waitSessions = 0) :
    m.Watched := by
  refine ⟨?_, fun sid w hw => ?_, fun sid w hw => ?_⟩
  · rw [hzero, eq_comm, Finset.card_eq_zero]
    exact Finset.eq_empty_of_forall_notMem fun sid hmem => mem_sleepers.1 hmem (hquiet sid)
  all_goals exact absurd ((hquiet sid).symm.trans hw) (Option.some_ne_none w).symm

/-- Any interleaving, with `resetMaster`. -/
def system (n : ℕ) : System (Master n) (Step n) where
  init m := ∃ maxConnections memory pos, 0 < maxConnections ∧ m = enable maxConnections memory pos
  step := step

/-- `resetMaster` runs only while no session waits. -/
def Quiet (m : Master n) : Step n → Prop
  | .reset => ∀ sid, m.sessions sid = none
  | _ => True

theorem Watched.step {a : Step n} (hn : n < 18446744073709551616) (h : m.Watched)
    (hquiet : m.Quiet a) (hstep : m.step a = some m') : m'.Watched := by
  cases a with
  | write malloc p =>
    simp only [Master.step] at hstep
    split_ifs at hstep
    cases hstep
    exact h.writeTranxInBinlog malloc p
  | commit sid p =>
    simp only [Master.step] at hstep
    split_ifs at hstep with hnone
    cases hstep
    exact h.commitPass hn hnone p
  | wake sid =>
    obtain ⟨w, hw, rfl⟩ := Option.map_eq_some_iff.1 hstep
    rw [← commitPass_without]
    exact (h.leaveWait hw).commitPass hn (update_self ..) w.pos
  | timeout sid =>
    obtain ⟨w, hw, rfl⟩ := Option.map_eq_some_iff.1 hstep
    rw [← commitPass_without]
    have hoff : m.leaveWait.switchOff.without sid = (m.leaveWait.without sid).switchOff := by
      simp only [Master.switchOff, condBroadcast, without, Master.mk.injEq, true_and]
      funext i
      by_cases hi : i = sid
      · simp [hi]
      · simp [hi]
    rw [hoff]
    refine (h.leaveWait hw).switchOff.commitPass hn ?_ w.pos
    simp [Master.switchOff, condBroadcast, without]
  | report p =>
    cases hstep
    exact h.reportReplyBinlog
  | switchOff =>
    cases hstep
    exact h.switchOff
  | reset =>
    cases hstep
    exact watched_of_quiet hquiet rfl

/-- In a run in which `resetMaster` runs only while no session waits, every session with a reply at
or after its position is signalled. -/
theorem noLostWakeUp_of_quiet (hn : n < 18446744073709551616) {m : Master n}
    (hinit : (system n).init m) (steps : List (Step n))
    (hquiet : (system n).AlongSteps Quiet m steps) :
    (system n).AlongStates NoLostWakeUp m steps := by
  obtain ⟨maxConnections, memory, pos, -, rfl⟩ := hinit
  exact System.alongStates_of_alongSteps (I := Watched) (fun _ h => h.woken)
    (fun _ _ _ h hq => h.step hn hq) (watched_of_quiet (fun _ => rfl) rfl) hquiet

/-- Two sessions wait, get their replies one after the other, and leave before the reset. -/
theorem noLostWakeUp_of_quiet_two : (system 2).AlongStates NoLostWakeUp
    (enable 1 ActiveTranx.zeroMemory (Commits.firstLog 4))
    [.commit 0 (Commits.firstLog 5), .commit 1 (Commits.firstLog 4), .report (Commits.firstLog 4),
      .wake 1, .wake 0, .report (Commits.firstLog 5), .wake 0, .reset] := by
  refine noLostWakeUp_of_quiet (by decide)
    ⟨1, ActiveTranx.zeroMemory, Commits.firstLog 4, Nat.one_pos, rfl⟩ _ ?_
  iterate 7 refine ⟨trivial, fun t ht => ?_⟩; cases ht
  refine ⟨?_, fun _ _ => trivial⟩
  intro sid
  fin_cases sid
  · decide +kernel
  · decide +kernel

/-- `resetMaster` forgets a waiting session, and the reply for it signals nobody. -/
theorem noLostWakeUp_reset : ∃ (m : Master 1) (w : Sleeper), (system 1).Reachable m ∧
    m.sessions 0 = some w ∧ m.replyInited = true ∧ w.pos ≤ m.reply ∧ w.signalled = false := by
  have hstart : (system 1).Reachable (enable 1 ActiveTranx.zeroMemory (Commits.firstLog 4)) :=
    .start ⟨1, ActiveTranx.zeroMemory, Commits.firstLog 4, Nat.one_pos, rfl⟩
  obtain ⟨m, hreach, hm⟩ := hstart.exists_of_run
    [.write (some 0) (Commits.firstLog 4), .commit 0 (Commits.firstLog 4), .reset,
      .report (Commits.firstLog 4)]
    (fun m => m.sessions 0 = some ⟨Commits.firstLog 4, false, true⟩ ∧ m.replyInited = true ∧
      Commits.firstLog 4 ≤ m.reply) (by decide +kernel)
  obtain ⟨hsleeps, hinited, hle⟩ := of_decide_eq_true hm
  exact ⟨m, _, hreach, hsleeps, hinited, hle, rfl⟩

end Master

end MySQL.Semisync
