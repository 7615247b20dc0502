import MySQL.Semisync.Master

/-!
# A commit with semi-synchronous replication on

A session that ends its wait with semi-synchronous replication on has a reply at or after its
position, if the positions are written in the order of the binary log.
-/

namespace MySQL.Semisync

open List Function

open MySQL.Lib

namespace Master

variable {n : ℕ} {m : Master n} {p : LogPos}

def Ahead (m : Master n) : Prop :=
  ∃ l, m.active.Holds l ∧ (m.replyInited = true → ∀ a ∈ l, m.reply < m.active.logPos a)

theorem ahead_enable {maxConnections : ℕ} (hpos : 0 < maxConnections) (memory : ActiveTranx)
    (pos : LogPos) : (enable maxConnections memory pos : Master n).Ahead :=
  ⟨[], ActiveTranx.holds_new hpos memory, fun _ _ ha => absurd ha not_mem_nil⟩

theorem Ahead.of_eq {m' : Master n} (h : m.Ahead) (hactive : m'.active = m.active)
    (hreply : m'.replyInited = true → m.replyInited = true ∧ m'.reply = m.reply) : m'.Ahead := by
  obtain ⟨l, hholds, hahead⟩ := h
  refine ⟨l, hactive ▸ hholds, fun hinited a ha => ?_⟩
  obtain ⟨hold, hsame⟩ := hreply hinited
  rw [hactive, hsame]
  exact hahead hold a ha

theorem Ahead.switchOff (h : m.Ahead) : m.switchOff.Ahead := by
  obtain ⟨l, hholds, -⟩ := h
  refine ⟨_, (hholds.clearActiveTranxNodes none).1, fun hinited => ?_⟩
  exact absurd hinited Bool.false_ne_true

theorem Ahead.noteReply (h : m.Ahead) : (m.noteReply p).Ahead := by
  obtain ⟨l, hholds, hahead⟩ := h
  rw [noteReply_eq]
  by_cases hbehind : m.replyInited = true ∧ p < m.reply
  · refine ⟨l, ?_, fun _ a ha => ?_⟩
    · simpa only [if_pos hbehind] using hholds
    · simpa only [newReply, if_pos hbehind] using hahead hbehind.1 a ha
  · obtain ⟨hcleared, hpos, -⟩ := hholds.clearActiveTranxNodes (some p)
    refine ⟨_, by simpa only [if_neg hbehind] using hcleared, fun _ a ha => ?_⟩
    have hkept : ¬m.active.logPos a ≤ p := of_decide_eq_true (mem_filter.1 ha).2
    simpa only [newReply, if_neg hbehind, hpos] using not_le.1 hkept

theorem noteCommit_eq : ∃ inited pos,
    m.noteCommit p = { m with commitInited := inited, commit := pos } := by
  unfold noteCommit
  split_ifs
  · exact ⟨m.commitInited, _, rfl⟩
  · exact ⟨m.commitInited, m.commit, rfl⟩
  · exact ⟨true, _, rfl⟩

theorem writeTranxInBinlog_reply {malloc : Option ℕ}
    (h : (m.writeTranxInBinlog malloc p).replyInited = true) :
    m.replyInited = true ∧ (m.writeTranxInBinlog malloc p).reply = m.reply := by
  obtain ⟨inited, pos, hcommit⟩ := noteCommit_eq (m := m) (p := p)
  unfold writeTranxInBinlog at h ⊢
  simp only [hcommit] at h ⊢
  split_ifs at h ⊢
  · exact absurd h Bool.false_ne_true
  · exact ⟨h, rfl⟩
  · exact ⟨h, rfl⟩

theorem Ahead.writeTranxInBinlog {malloc : Option ℕ} (h : m.Ahead)
    (hfresh : m.active.Fresh malloc) (hshort : p.name.length < 512)
    (hlast : m.replyInited = true → m.reply < p) : (m.writeTranxInBinlog malloc p).Ahead := by
  obtain ⟨inited, pos, hcommit⟩ := noteCommit_eq (m := m) (p := p)
  unfold Master.writeTranxInBinlog
  simp only [hcommit]
  by_cases hstate : m.state = true
  · obtain ⟨l, hholds, hahead⟩ := h
    have heffect := hholds.insertTranxNode (p := p) hfresh
    rw [if_pos hstate]
    generalize m.active.insertTranxNode malloc p = inserted at heffect ⊢
    cases heffect with
    | refused hholds' hsame hnum hreason =>
      -- the insertion fails, and the list is emptied
      rw [if_pos (by simp)]
      refine ⟨_, (hholds'.clearActiveTranxNodes none).1, fun hinited => ?_⟩
      exact absurd hinited Bool.false_ne_true
    | @appended s' a hholds' hnum hnew hold hbefore =>
      rw [if_neg (not_not.2 rfl)]
      refine ⟨_, hholds', fun hinited b hb => ?_⟩
      rcases mem_append.1 hb with hb | hb
      · rw [hold b hb]
        exact hahead hinited b hb
      · rw [mem_singleton.1 hb, hnew, ActiveTranx.storedPos_eq hshort]
        exact hlast hinited
  · rw [if_neg hstate]
    exact h.of_eq rfl fun hinited => ⟨hinited, rfl⟩

theorem Ahead.not_isTranxEndPos (h : m.Ahead) (hinited : m.replyInited = true)
    (hle : p ≤ m.reply) : m.active.isTranxEndPos p = false := by
  obtain ⟨l, hholds, hahead⟩ := h
  rw [← Bool.not_eq_true, hholds.isTranxEndPos_iff]
  intro hmem
  obtain ⟨a, ha, rfl⟩ := List.mem_map.1 hmem
  exact absurd hle (not_le.2 (hahead hinited a ha))

theorem releaseThreads_eq : ∃ waitInited sessions,
    m.releaseThreads = { m with waitInited := waitInited, sessions := sessions } := by
  unfold releaseThreads
  split_ifs
  · exact ⟨_, _, rfl⟩
  · exact ⟨m.waitInited, m.sessions, rfl⟩

theorem reportReplyBinlog_parts : ∃ state waitInited sessions,
    m.reportReplyBinlog p =
      { m.noteReply p with state := state, waitInited := waitInited, sessions := sessions } := by
  obtain ⟨state, hreport⟩ := reportReplyBinlog_eq m p
  obtain ⟨waitInited, sessions, hrelease⟩ :=
    releaseThreads_eq
  refine ⟨state, waitInited, sessions, ?_⟩
  rw [hreport, hrelease]
  simp only [acknowledge, noteReply_eq]
  rfl

end Master

/-- The master with what was written, reported and ended so far, the last one first.  A commit ends
with the state of the replication. -/
structure Commits (n : ℕ) where
  master : Master n
  written : List LogPos
  reported : List LogPos
  ended : List (LogPos × Bool)

namespace Commits

variable {n : ℕ} {t t' : Commits n} {p : LogPos}

def ends (t : Commits n) (sid : Fin n) (p : LogPos) (m : Master n) : Commits n :=
  { t with
    master := m
    ended := if m.sessions sid = none then (p, m.state) :: t.ended else t.ended }

def step (t : Commits n) : Master.Step n → Option (Commits n)
  | .write malloc p => (t.master.step (.write malloc p)).map fun m =>
      { t with master := m, written := p :: t.written }
  | .commit sid p => (t.master.step (.commit sid p)).map (t.ends sid p)
  | .wake sid => (t.master.sessions sid).bind fun w =>
      (t.master.step (.wake sid)).map (t.ends sid w.pos)
  | .timeout sid => (t.master.sessions sid).bind fun w =>
      (t.master.step (.timeout sid)).map (t.ends sid w.pos)
  | .report p =>
    if p ∈ t.written then
      (t.master.step (.report p)).map fun m =>
        { t with master := m, reported := p :: t.reported }
    else none
  | .switchOff => (t.master.step .switchOff).map fun m => { t with master := m }
  | .reset => none

def system (n : ℕ) : System (Commits n) (Master.Step n) where
  init t := ∃ maxConnections memory pos, 0 < maxConnections ∧
    t = ⟨Master.enable maxConnections memory pos, [], [], []⟩
  step := step

def InOrder (written : List LogPos) : Prop :=
  written.Pairwise (fun p q => q < p) ∧ ∀ p ∈ written, p.name.length < 512

theorem InOrder.tail {written : List LogPos} (h : InOrder (p :: written)) : InOrder written :=
  ⟨h.1.of_cons, fun q hq => h.2 q (mem_cons_of_mem p hq)⟩

/-- The last reply was reported, and the active transactions come after it. -/
structure Answered (m : Master n) (written reported : List LogPos) : Prop where
  ahead : m.Ahead
  reply : m.replyInited = true → m.reply ∈ reported
  reported : ∀ p ∈ reported, p ∈ written

/-- The end of a commit: the outcome is counted, and a good one has its reply. -/
structure Ended (t : Commits n) (p : LogPos) (state : Bool) (t' : Commits n) : Prop where
  ended : t'.ended = (p, state) :: t.ended
  outcome : t'.master.state = state
  yes : t'.master.yesTransactions = t.master.yesTransactions + if state then 1 else 0
  replied : state = true → (∃ q ∈ t.reported, p ≤ q) ∧ t'.master.active.isTranxEndPos p = false

/-- No commit ends. -/
structure Running (t t' : Commits n) : Prop where
  ended : t'.ended = t.ended
  yes : t'.master.yesTransactions = t.master.yesTransactions

/-- What a step does in order. -/
structure Progress (t t' : Commits n) : Prop where
  answered : Answered t'.master t'.written t'.reported
  ended : (∃ p state, Ended t p state t') ∨ Running t t'

section Answered

variable {m m' : Master n} {written reported : List LogPos} {malloc : Option ℕ}

section

variable (h : Answered m written reported)

include h

theorem Answered.of_eq (hactive : m'.active = m.active)
    (hreply : m'.replyInited = m.replyInited) (hsame : m'.reply = m.reply) :
    Answered m' written reported := by
  refine ⟨h.ahead.of_eq hactive fun hinited => ⟨hreply ▸ hinited, hsame⟩, fun hinited => ?_,
    h.reported⟩
  rw [hsame]
  exact h.reply (hreply ▸ hinited)

theorem Answered.leaveWait : Answered m.leaveWait written reported :=
  h.of_eq rfl rfl rfl

theorem Answered.switchOff : Answered m.switchOff written reported :=
  ⟨h.ahead.switchOff, fun hinited => absurd hinited Bool.false_ne_true, h.reported⟩

theorem Answered.write (hfresh : m.active.Fresh malloc) (horder : InOrder (p :: written)) :
    Answered (m.writeTranxInBinlog malloc p) (p :: written) reported := by
  refine ⟨?_, fun hinited => ?_, fun q hq => mem_cons_of_mem p (h.reported q hq)⟩
  · apply h.ahead.writeTranxInBinlog hfresh (horder.2 p mem_cons_self)
    intro hinited
    exact rel_of_pairwise_cons horder.1 (h.reported _ (h.reply hinited))
  · obtain ⟨hold, hsame⟩ := Master.writeTranxInBinlog_reply hinited
    rw [hsame]
    exact h.reply hold

theorem Answered.report (hwritten : p ∈ written) :
    Answered (m.reportReplyBinlog p) written (p :: reported) := by
  obtain ⟨state, waitInited, sessions, hreport⟩ := Master.reportReplyBinlog_parts
  rw [hreport]
  refine ⟨h.ahead.noteReply.of_eq rfl fun hinited => ⟨hinited, rfl⟩, fun _ => ?_, fun q hq => ?_⟩
  · rw [Master.noteReply_eq]
    dsimp only [Master.newReply]
    split_ifs with hbehind
    · exact mem_cons_of_mem p (h.reply hbehind.1)
    · exact mem_cons_self
  · rcases mem_cons.1 hq with rfl | hq
    · exact hwritten
    · exact h.reported q hq

end

theorem Answered.pass (h : Answered m t.written t.reported)
    (hyes : m.yesTransactions = t.master.yesTransactions) (sid : Fin n) (p : LogPos) :
    Progress t (t.ends sid p (m.commitPass sid p)) := by
  have heffect := m.commitPass_effect sid p
  generalize m.commitPass sid p = m' at heffect ⊢
  cases heffect with
  | off hstate =>
    refine ⟨h.of_eq rfl rfl rfl, Or.inl ⟨p, false, ?_, hstate, hyes, ?_⟩⟩
    · simp only [ends, update_self, if_true, hstate]
    · intro htrue
      exact absurd htrue Bool.false_ne_true
  | replied hstate hinited hle =>
    refine ⟨h.of_eq rfl rfl rfl, Or.inl ⟨p, true, ?_, hstate, ?_, ?_⟩⟩
    · simp only [ends, update_self, if_true, hstate]
    · exact congrArg (· + 1) hyes
    · intro _
      exact ⟨⟨m.reply, h.reply hinited, hle⟩, h.ahead.not_isTranxEndPos hinited hle⟩
  | waits hstate hahead =>
    refine ⟨h.of_eq rfl rfl rfl, Or.inr ⟨?_, hyes⟩⟩
    simp only [ends, update_self, reduceCtorEq, if_false]

end Answered

theorem writeTranxInBinlog_yes {m : Master n} {malloc : Option ℕ} :
    (m.writeTranxInBinlog malloc p).yesTransactions = m.yesTransactions := by
  obtain ⟨inited, pos, hcommit⟩ := Master.noteCommit_eq (m := m) (p := p)
  unfold Master.writeTranxInBinlog
  simp only [hcommit]
  split_ifs <;> rfl

theorem reportReplyBinlog_yes {m : Master n} :
    (m.reportReplyBinlog p).yesTransactions = m.yesTransactions := by
  obtain ⟨state, waitInited, sessions, hreport⟩ := Master.reportReplyBinlog_parts
  rw [hreport, Master.noteReply_eq]

theorem Answered.step {a : Master.Step n}
    (h : Answered t.master t.written t.reported) (hstep : t.step a = some t')
    (horder : InOrder t'.written) : Progress t t' := by
  cases a with
  | write malloc p =>
    obtain ⟨m, hm, rfl⟩ := Option.map_eq_some_iff.1 hstep
    simp only [Master.step] at hm
    split_ifs at hm with hfresh
    cases hm
    exact ⟨h.write hfresh horder, Or.inr ⟨rfl, writeTranxInBinlog_yes⟩⟩
  | commit sid p =>
    obtain ⟨m, hm, rfl⟩ := Option.map_eq_some_iff.1 hstep
    simp only [Master.step] at hm
    split_ifs at hm with hnone
    cases hm
    exact h.pass rfl sid p
  | wake sid =>
    obtain ⟨w, hw, hstep⟩ := Option.bind_eq_some_iff.1 hstep
    simp only [Master.step, hw, Option.map_some] at hstep
    cases hstep
    exact h.leaveWait.pass rfl sid w.pos
  | timeout sid =>
    obtain ⟨w, hw, hstep⟩ := Option.bind_eq_some_iff.1 hstep
    simp only [Master.step, hw, Option.map_some] at hstep
    cases hstep
    exact h.leaveWait.switchOff.pass rfl sid w.pos
  | report p =>
    simp only [Commits.step] at hstep
    split_ifs at hstep with hwritten
    cases hstep
    exact ⟨h.report hwritten, Or.inr ⟨rfl, reportReplyBinlog_yes⟩⟩
  | switchOff =>
    cases hstep
    exact ⟨h.switchOff, Or.inr ⟨rfl, rfl⟩⟩
  | reset => exact absurd hstep (by simp [Commits.step])

theorem step_written {a : Master.Step n} (hstep : t.step a = some t') :
    t'.written = t.written ∨ t'.ended = t.ended ∧ ∃ p, t'.written = p :: t.written := by
  cases a with
  | write malloc p =>
    obtain ⟨m, hm, rfl⟩ := Option.map_eq_some_iff.1 hstep
    exact Or.inr ⟨rfl, p, rfl⟩
  | commit sid p =>
    obtain ⟨m, hm, rfl⟩ := Option.map_eq_some_iff.1 hstep
    exact Or.inl rfl
  | wake sid | timeout sid =>
    obtain ⟨w, hw, hstep⟩ := Option.bind_eq_some_iff.1 hstep
    obtain ⟨m, hm, rfl⟩ := Option.map_eq_some_iff.1 hstep
    exact Or.inl rfl
  | report p =>
    simp only [Commits.step] at hstep
    split_ifs at hstep
    obtain ⟨m, hm, rfl⟩ := Option.map_eq_some_iff.1 hstep
    exact Or.inl rfl
  | switchOff =>
    cases hstep
    exact Or.inl rfl
  | reset => exact absurd hstep (by simp [Commits.step])

theorem inOrder_of_step {a : Master.Step n} (hstep : t.step a = some t')
    (horder : InOrder t'.written) : InOrder t.written := by
  rcases step_written hstep with hsame | ⟨-, p, hwritten⟩
  · exact hsame ▸ horder
  · rw [hwritten] at horder
    exact horder.tail

def Counted (t : Commits n) : Prop :=
  t.master.yesTransactions = t.ended.countP fun e => e.2

theorem Progress.counted (h : Progress t t') (hcounted : Counted t) : Counted t' := by
  unfold Counted at hcounted ⊢
  rcases h.ended with ⟨p, state, hended⟩ | hrunning
  · rw [hended.ended, hended.yes, hcounted, countP_cons]
  · rw [hrunning.ended, hrunning.yes, hcounted]

theorem answered_of_reachable (h : (system n).Reachable t) :
    InOrder t.written → Answered t.master t.written t.reported ∧ Counted t := by
  refine h.invariant (P := fun t => InOrder t.written →
    Answered t.master t.written t.reported ∧ Counted t) ?_ ?_
  · rintro t ⟨maxConnections, memory, pos, hpos, rfl⟩ -
    refine ⟨⟨Master.ahead_enable hpos memory pos, ?_, ?_⟩, rfl⟩
    · intro hinited
      exact absurd hinited Bool.false_ne_true
    · intro q hq
      exact absurd hq not_mem_nil
  · intro t a t' _ ih hstep horder
    obtain ⟨hanswered, hcounted⟩ := ih (inOrder_of_step hstep horder)
    have hprogress := hanswered.step hstep horder
    exact ⟨hprogress.answered, hprogress.counted hcounted⟩

/-- `rpl_semi_sync_master_yes_transactions` counts the commits that end with semi-synchronous
replication on.  When one ends so, a reply at or after its position was reported, and its position
is not among the active transactions. -/
theorem commitTrx_yes {t : Commits n} (hreach : (system n).Reachable t)
    (horder : InOrder t.written) :
    t.master.yesTransactions = (t.ended.countP fun e => e.2) ∧
      ∀ a t' p, (system n).step t a = some t' → t'.ended = (p, true) :: t.ended →
        t'.master.state = true ∧ (∃ q ∈ t.reported, p ≤ q) ∧
          t'.master.active.isTranxEndPos p = false := by
  obtain ⟨hanswered, hcounted⟩ := answered_of_reachable hreach horder
  refine ⟨hcounted, fun a t' p hstep hended => ?_⟩
  have hne : t'.ended ≠ t.ended := by
    rw [hended]
    exact cons_ne_self _ _
  have hwritten : t'.written = t.written :=
    (step_written hstep).resolve_right fun h => hne h.1
  rcases (hanswered.step hstep (hwritten ▸ horder)).ended with ⟨q, state, h⟩ | hrunning
  · have heq : (q, state) = (p, true) := (List.cons.inj (h.ended.symm.trans hended)).1
    obtain ⟨rfl, rfl⟩ := Prod.mk.inj heq
    exact ⟨h.outcome, h.replied rfl⟩
  · exact absurd hrunning.ended hne

theorem step_commit (sid : Fin n) (h : t.master.sessions sid = none) (p : LogPos) :
    (system n).step t (.commit sid p) = some (t.ends sid p (t.master.commitPass sid p)) := by
  simp only [system, step, Master.step, if_pos h, Option.map_some]

def firstLog (pos : UInt64) : LogPos := ⟨[97], pos⟩

def acknowledged (p : LogPos) : Commits 1 :=
  ⟨((Master.enable 1 ActiveTranx.zeroMemory p).writeTranxInBinlog (some 0) p).reportReplyBinlog p,
    [p], [p], []⟩

theorem reachable_acknowledged (p : LogPos) : (system 1).Reachable (acknowledged p) := by
  have hstart : (system 1).Reachable
      ⟨Master.enable 1 ActiveTranx.zeroMemory p, [], [], []⟩ :=
    .start ⟨1, ActiveTranx.zeroMemory, p, Nat.one_pos, rfl⟩
  refine (hstart.next (a := .write (some 0) p) rfl).next (a := .report p) ?_
  exact if_pos (mem_singleton_self p)

theorem commitTrx_yes_acknowledged :
    ∃ t', (system 1).step (acknowledged (firstLog 4)) (.commit 0 (firstLog 4)) = some t' ∧
      t'.ended = [(firstLog 4, true)] ∧ t'.master.active.isTranxEndPos (firstLog 4) = false := by
  have horder : InOrder (acknowledged (firstLog 4)).written :=
    ⟨pairwise_singleton _ _, by decide⟩
  have hstep := step_commit (t := acknowledged (firstLog 4)) 0 (by decide +kernel) (firstLog 4)
  have hended : ((acknowledged (firstLog 4)).ends 0 (firstLog 4)
      ((acknowledged (firstLog 4)).master.commitPass 0 (firstLog 4))).ended =
        [(firstLog 4, true)] := by decide +kernel
  have hyes := (commitTrx_yes (reachable_acknowledged (firstLog 4)) horder).2 _ _ _ hstep hended
  exact ⟨_, hstep, hended, hyes.2.2⟩

/-- `a.999999` and the next log `a.1000000`, whose name comes first. -/
def millionthLog (pos : UInt64) : LogPos := ⟨[97, 46, 49, 48, 48, 48, 48, 48, 48], pos⟩

/-- A position that is written behind the last reply stays active at the end of its commit. -/
theorem commitTrx_out_of_order :
    ∃ (t t' : Commits 1) (a : Master.Step 1), (system 1).Reachable t ∧
      t.reported = [⟨[97, 46, 57, 57, 57, 57, 57, 57], 120⟩] ∧
      (system 1).step t a = some t' ∧ t'.ended = (millionthLog 107, true) :: t.ended ∧
      t'.master.active.isTranxEndPos (millionthLog 107) = true := by
  have hreach := (reachable_acknowledged ⟨[97, 46, 57, 57, 57, 57, 57, 57], 120⟩).next
    (a := .write none (millionthLog 107)) rfl
  refine ⟨_, _, .commit 0 (millionthLog 107), hreach, rfl, step_commit 0 ?_ _, ?_, ?_⟩
  · decide +kernel
  · decide +kernel
  · decide +kernel

end Commits

end MySQL.Semisync
