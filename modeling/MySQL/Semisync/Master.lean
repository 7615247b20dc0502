import MySQL.Semisync.ActiveTranxSafety

/-!
# The master of semi-synchronous replication

A session that commits waits until the position of its transaction is reported by a slave, or until
semi-synchronous replication is switched off.  Everything between two waits for the condition is
done under one mutex and is one step.
-/

namespace MySQL.Semisync

open MySQL.Lib Function

/-- A session that waits for the condition.  That a reply for its position has arrived is remembered
for the statements only. -/
structure Sleeper where
  pos : LogPos
  signalled : Bool
  acked : Bool
deriving DecidableEq

/-- `ReplSemiSyncMaster`, enabled, with the sessions in `commitTrx`. -/
structure Master (n : ℕ) where
  active : ActiveTranx
  state : Bool
  replyInited : Bool
  reply : LogPos
  waitInited : Bool
  wait : LogPos
  commitInited : Bool
  commit : LogPos
  waitSessions : ℕ
  yesTransactions : ℕ
  noTransactions : ℕ
  sessions : Fin n → Option Sleeper

namespace Master

variable {n : ℕ}

/-- `enableMaster` -/
def enable (maxConnections : ℕ) (memory : ActiveTranx) (pos : LogPos) : Master n where
  active := ActiveTranx.new maxConnections memory
  state := true
  replyInited := false
  reply := pos
  waitInited := false
  wait := pos
  commitInited := false
  commit := pos
  waitSessions := 0
  yesTransactions := 0
  noTransactions := 0
  sessions _ := none

def condBroadcast (m : Master n) : Master n :=
  { m with sessions := fun i => (m.sessions i).map fun w => { w with signalled := true } }

def switchOff (m : Master n) : Master n :=
  condBroadcast
    { m with
      state := false
      active := m.active.clearActiveTranxNodes none
      waitInited := false
      replyInited := false }

variable (m : Master n) (p : LogPos)

def trySwitchOn : Master n :=
  if m.commitInited then
    if p.compare m.commit ≠ .lt then { m with state := true } else m
  else { m with state := true }

def noteCommit : Master n :=
  if m.commitInited then
    if p.compare m.commit = .gt then { m with commit := ActiveTranx.storedPos p } else m
  else { m with commit := ActiveTranx.storedPos p, commitInited := true }

def writeTranxInBinlog (malloc : Option ℕ) (p : LogPos) : Master n :=
  let m := m.noteCommit p
  if m.state then
    let inserted := m.active.insertTranxNode malloc p
    if inserted.2 ≠ 0 then switchOff { m with active := inserted.1 }
    else { m with active := inserted.1 }
  else m

def noteReply : Master n :=
  if m.replyInited = true ∧ p.compare m.reply = .lt then m
  else
    { m with
      reply := p
      replyInited := true
      active := m.active.clearActiveTranxNodes (some p) }

def acknowledge : Master n :=
  { m with
    sessions := fun i => (m.sessions i).map fun w => { w with acked := w.acked || w.pos ≤ p } }

def releaseThreads : Master n :=
  if m.waitSessions > 0 ∧ m.reply.compare m.wait ≠ .lt then
    condBroadcast { m with waitInited := false }
  else m

def reportReplyBinlog : Master n :=
  let m := if m.state then m else m.trySwitchOn p
  releaseThreads ((m.noteReply p).acknowledge p)

def noteWait : Master n :=
  if m.waitInited then if p.compare m.wait ≠ .gt then { m with wait := p } else m
  else { m with wait := p, waitInited := true }

def endCommit (sid : Fin n) : Master n :=
  let m := { m with sessions := update m.sessions sid none }
  if m.state then { m with yesTransactions := m.yesTransactions + 1 }
  else { m with noTransactions := m.noTransactions + 1 }

/-- The loop of `commitTrx` up to the wait for the condition, or to its end. -/
def commitPass (sid : Fin n) (p : LogPos) : Master n :=
  if m.state = true then
    if m.replyInited = true ∧ m.reply.compare p ≠ .lt then m.endCommit sid
    else
      let m := m.noteWait p
      { m with
        waitSessions := (m.waitSessions + 1) % 18446744073709551616
        sessions := update m.sessions sid (some ⟨p, false, false⟩) }
  else m.endCommit sid

def leaveWait : Master n :=
  { m with
    waitSessions := if m.waitSessions = 0 then 18446744073709551615 else m.waitSessions - 1 }

def resetMaster : Master n :=
  { m with
    state := true
    waitInited := false
    replyInited := false
    commitInited := false
    yesTransactions := 0
    noTransactions := 0
    waitSessions := 0 }

/-- What the threads do next. -/
inductive Step (n : ℕ)
  | write (malloc : Option ℕ) (p : LogPos)
  | commit (sid : Fin n) (p : LogPos)
  | wake (sid : Fin n)
  | timeout (sid : Fin n)
  | report (p : LogPos)
  | switchOff
  | reset

def step (m : Master n) : Step n → Option (Master n)
  | .write malloc p => if m.active.Fresh malloc then some (m.writeTranxInBinlog malloc p) else none
  | .commit sid p => if m.sessions sid = none then some (m.commitPass sid p) else none
  | .wake sid => (m.sessions sid).map fun w => m.leaveWait.commitPass sid w.pos
  | .timeout sid => (m.sessions sid).map fun w => m.leaveWait.switchOff.commitPass sid w.pos
  | .report p => some (m.reportReplyBinlog p)
  | .switchOff => some m.switchOff
  | .reset => some m.resetMaster

variable {m : Master n} {sid : Fin n} {p : LogPos}

def lowest (m : Master n) (p : LogPos) : LogPos :=
  if m.waitInited then min p m.wait else p

theorem noteWait_eq : m.noteWait p = { m with wait := m.lowest p, waitInited := true } := by
  obtain ⟨active, state, replyInited, reply, waitInited, wait, rest⟩ := m
  cases waitInited with
  | false => rfl
  | true =>
    simp only [noteWait, lowest, if_true, ne_eq, LogPos.compare_eq_gt, not_lt]
    split_ifs with hle
    · rw [min_eq_left hle]
    · rw [min_eq_right (not_le.1 hle).le]

/-- What the loop of `commitTrx` does before it waits or ends. -/
inductive PassEffect (m : Master n) (sid : Fin n) (p : LogPos) : Master n → Prop
  | off (state : m.state = false) :
      PassEffect m sid p
        { m with
          sessions := update m.sessions sid none
          noTransactions := m.noTransactions + 1 }
  | replied (state : m.state = true) (inited : m.replyInited = true) (le : p ≤ m.reply) :
      PassEffect m sid p
        { m with
          sessions := update m.sessions sid none
          yesTransactions := m.yesTransactions + 1 }
  | waits (state : m.state = true) (ahead : m.replyInited = true → m.reply < p) :
      PassEffect m sid p
        { m with
          wait := m.lowest p
          waitInited := true
          waitSessions := (m.waitSessions + 1) % 18446744073709551616
          sessions := update m.sessions sid (some ⟨p, false, false⟩) }

theorem commitPass_effect (m : Master n) (sid : Fin n) (p : LogPos) :
    PassEffect m sid p (m.commitPass sid p) := by
  unfold commitPass
  split_ifs with hstate hreplied
  · obtain ⟨hinited, hle⟩ := hreplied
    rw [ne_eq, LogPos.compare_eq_lt, not_lt] at hle
    have heffect : PassEffect m sid p _ := .replied hstate hinited hle
    simpa only [endCommit, hstate, if_true] using heffect
  · simp only [noteWait_eq]
    refine .waits hstate fun hinited => ?_
    by_contra hle
    exact hreplied ⟨hinited, fun hlt => hle (LogPos.compare_eq_lt.1 hlt)⟩
  · rw [Bool.not_eq_true] at hstate
    have heffect : PassEffect m sid p _ := .off hstate
    simpa only [endCommit, hstate, Bool.false_eq_true, if_false] using heffect

def newReply (m : Master n) (p : LogPos) : LogPos :=
  if m.replyInited = true ∧ p < m.reply then m.reply else p

theorem le_newReply : p ≤ m.newReply p := by
  unfold newReply
  split_ifs with hbehind
  · exact hbehind.2.le
  · exact le_rfl

theorem noteReply_eq : m.noteReply p = { m with
      reply := m.newReply p
      replyInited := true
      active := if m.replyInited = true ∧ p < m.reply then m.active
        else m.active.clearActiveTranxNodes (some p) } := by
  unfold noteReply newReply
  simp only [LogPos.compare_eq_lt]
  split_ifs with hbehind
  · obtain ⟨active, state, replyInited, rest⟩ := m
    obtain rfl : replyInited = true := hbehind.1
    rfl
  · rfl

theorem trySwitchOn_eq : ∃ state, m.trySwitchOn p = { m with state := state } := by
  unfold trySwitchOn
  split_ifs
  · exact ⟨true, rfl⟩
  · exact ⟨m.state, rfl⟩
  · exact ⟨true, rfl⟩

theorem reportReplyBinlog_eq (m : Master n) (p : LogPos) :
    ∃ state, m.reportReplyBinlog p =
      releaseThreads ((noteReply { m with state := state } p).acknowledge p) := by
  unfold reportReplyBinlog
  split_ifs with hstate
  · exact ⟨m.state, rfl⟩
  · obtain ⟨state, hswitch⟩ := trySwitchOn_eq
    exact ⟨state, by rw [hswitch]⟩

end Master

end MySQL.Semisync
