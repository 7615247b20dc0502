import MySQL.Innobase.PurgeView

/-!
# Read views along a run

The views of `trx_sys->view_list` stand from the newest to the oldest, and an older view
hides more and has a smaller `low_limit_no`.  Hence the copy of the last one hides whatever
some open view hides.
-/

namespace MySQL.Innobase

open List

namespace TrxSys

variable {s s' : TrxSys} {v w : ReadView} {t : TrxId}

/-! ## A view that is opened -/

section Open

variable {hide : Trx → Bool} {crTrxId : TrxId}

/-- The running transactions are hidden, apart from the creator. -/
structure Opens (s : TrxSys) (hide : Trx → Bool) (crTrxId : TrxId) : Prop where
  running : ∀ x ∈ s.trxList, hide x → x.Running
  hide : ∀ x ∈ s.trxList, x.Running → hide x ∨ crTrxId ≠ 0 ∧ x.id = crTrxId
  creator : crTrxId ≠ 0 → ∃ x ∈ s.trxList, x.id = crTrxId ∧ x.InStatement

theorem Opens.creator_lt (h : Opens s hide crTrxId) (hne : crTrxId ≠ 0) : crTrxId < s.maxTrxId := by
  obtain ⟨x, hx, rfl, -⟩ := h.creator hne
  exact s.lt_max x hx

variable (h : Opens s hide crTrxId)

def Opens.view : ReadView :=
  .ofCollected hide s.maxTrxId s.trxList crTrxId s.descending s.lt_max h.creator_lt

theorem Opens.hides_iff :
    h.view.Hides t ↔ s.maxTrxId ≤ t ∨ ∃ x ∈ s.trxList, x.Running ∧ x.id = t := by
  refine or_congr_right ⟨?_, ?_⟩
  · rintro (hmem | ⟨hne, rfl⟩)
    · obtain ⟨x, hx, hhide, hid⟩ := mem_collect_trxIds.mp hmem
      exact ⟨x, hx, h.running x hx hhide, hid⟩
    · obtain ⟨x, hx, hid, hstmt⟩ := h.creator hne
      exact ⟨x, hx, .inl hstmt.1, hid⟩
  · rintro ⟨x, hx, hrun, rfl⟩
    rcases h.hide x hx hrun with hhide | ⟨hne, hid⟩
    · exact .inl (mem_collect_trxIds.mpr ⟨x, hx, hhide, rfl⟩)
    · exact .inr ⟨hne, hid⟩

theorem Opens.lowLimitNo_le (hnum : Numbered s) {x : Trx} (hx : x ∈ s.trxList) (hrun : x.Running) :
    h.view.lowLimitNo ≤ x.no := by
  rcases h.hide x hx hrun with hhide | ⟨hne, hid⟩
  · exact ((le_collect_lowLimitNo ..).mp le_rfl).2 x hx hhide
  · -- The creator is not committing, so it has no number yet.
    obtain ⟨y, hy, hid', hactive, hrec, hcommit⟩ := h.creator hne
    have hxy : x = y := eq_of_id_eq hx hy (hid.trans hid'.symm)
    rw [hxy, hnum.session y hy (.inl hactive) hrec hcommit]
    exact le_top

theorem Opens.covers (hnum : Numbered s) : Covers s h.view where
  lowLimitId_le := le_rfl
  lowLimitNo_le := ((le_collect_lowLimitNo ..).mp le_rfl).1
  running x hx hrun := h.hides_iff.mpr (.inr ⟨x, hx, hrun, rfl⟩)
  numbered x hx hhides := by
    rcases h.hides_iff.mp hhides with hmax | ⟨y, hy, hrun, hid⟩
    · exact absurd (s.lt_max x hx) hmax.not_gt
    · exact eq_of_id_eq hy hx hid ▸ h.lowLimitNo_le hnum hy hrun
  history e he hhides := by
    obtain ⟨hlt, hnumber⟩ := hnum.history e he
    rcases h.hides_iff.mp hhides with hmax | ⟨x, hx, hrun, hid⟩
    · exact absurd hlt hmax.not_gt
    · rw [← (hnumber x hx hid hrun).2]
      exact h.lowLimitNo_le hnum hx hrun

end Open

/-! ## The order of the views -/

/-- The first view was opened after the second, or is the view that was copied. -/
structure Newer (v w : ReadView) : Prop where
  lowLimitNo_le : w.lowLimitNo ≤ v.lowLimitNo
  hides : ∀ t, v.Hides t → w.Hides t

theorem Newer.refl (v : ReadView) : Newer v v := ⟨le_rfl, fun _ => id⟩

theorem Newer.copyForPurge (h : Newer v w) : Newer v w.copyForPurge :=
  ⟨h.lowLimitNo_le, fun t ht => (w.hides_copyForPurge t).mpr (h.hides t ht)⟩

theorem Opens.newer {hide : Trx → Bool} {crTrxId : TrxId} (h : Opens s hide crTrxId)
    (hw : Covers s w) : Newer h.view w where
  lowLimitNo_le := (le_collect_lowLimitNo ..).mpr
    ⟨hw.lowLimitNo_le, fun x hx hhide => hw.numbered x hx (hw.running x hx (h.running x hx hhide))⟩
  hides t ht := by
    rcases h.hides_iff.mp ht with hmax | ⟨x, hx, hrun, rfl⟩
    · exact .inl (hw.lowLimitId_le.trans hmax)
    · exact hw.running x hx hrun

theorem Covers.copyForPurge (h : Covers s v) : Covers s v.copyForPurge where
  __ := h
  running x hx hrun := (v.hides_copyForPurge _).mpr (h.running x hx hrun)
  numbered x hx hhides := h.numbered x hx ((v.hides_copyForPurge _).mp hhides)
  history e he hhides := h.history e he ((v.hides_copyForPurge _).mp hhides)

/-- What is true in every reachable state. -/
structure Inv (s : TrxSys) : Prop where
  numbered : Numbered s
  covers : ∀ v ∈ s.viewList, Covers s v.2
  ordered : s.viewList.Pairwise fun v w => Newer v.2 w.2

theorem AtDbStart.inv (h : AtDbStart s) : Inv s where
  numbered := h.numbered
  covers := by simp [h.views]
  ordered := by simp [h.views]

theorem Inv.of_sublist (h : Inv s) (hnum : Numbered s') (hp : Progress s s')
    (hviews : s'.viewList.Sublist s.viewList) : Inv s' where
  numbered := hnum
  covers v hv := (h.covers v (hviews.subset hv)).progress hp
  ordered := h.ordered.sublist hviews

theorem opens_readViewOpenNow {x : Trx} (hx : x ∈ s.trxList) (hstmt : x.InStatement) :
    Opens s (fun y => y.id ≠ x.id ∧ y.Running) x.id where
  running y _ hhide := (of_decide_eq_true hhide).2
  hide y _ hrun := by
    by_cases hid : y.id = x.id
    · exact .inr ⟨(s.pos x hx).ne', hid⟩
    · exact .inl (decide_eq_true ⟨hid, hrun⟩)
  creator _ := ⟨x, hx, rfl, hstmt⟩

theorem opens_cursorView {x : Trx} (hx : x ∈ s.trxList) (hstmt : x.InStatement) :
    Opens s (fun y => y.Running) x.id where
  running _ _ := of_decide_eq_true
  hide _ _ hrun := .inl (decide_eq_true hrun)
  creator _ := ⟨x, hx, rfl, hstmt⟩

theorem opens_purge (s : TrxSys) : Opens s (fun y => y.id ≠ 0 ∧ y.Running) 0 where
  running _ _ hhide := (of_decide_eq_true hhide).2
  hide y hy hrun := .inl (decide_eq_true ⟨(s.pos y hy).ne', hrun⟩)
  creator h := absurd rfl h

theorem Inv.opened (h : Inv s) {hide : Trx → Bool} {crTrxId : TrxId}
    (hopen : Opens s hide crTrxId) (hquiet : Quiet s s') {i : ViewId}
    (hviews : s'.viewList = (i, hopen.view) :: s.viewList) : Inv s' where
  numbered := h.numbered.quiet hquiet
  covers := by
    rw [hviews]
    refine forall_mem_cons.mpr ⟨?_, fun w hw => (h.covers w hw).progress hquiet.progress⟩
    exact (hopen.covers h.numbered).progress hquiet.progress
  ordered := by
    rw [hviews]
    exact pairwise_cons.mpr ⟨fun w hw => hopen.newer (h.covers w hw), h.ordered⟩

theorem Inv.oldestCopy (h : Inv s) :
    Covers s s.oldestCopy ∧ ∀ v ∈ s.viewList, Newer v.2 s.oldestCopy := by
  unfold TrxSys.oldestCopy
  split
  next hnone =>
    have hnil : s.viewList = [] := List.getLast?_eq_none_iff.mp hnone
    exact ⟨(opens_purge s).covers h.numbered, by simp [hnil]⟩
  next last hlast =>
    obtain ⟨front, hfront⟩ := List.getLast?_eq_some_iff.mp hlast
    have hmem : last ∈ s.viewList := by simp [hfront]
    refine ⟨(h.covers last hmem).copyForPurge, fun v hv => Newer.copyForPurge ?_⟩
    rw [hfront] at hv
    rcases mem_append.mp hv with hv | hv
    · have hordered := hfront ▸ h.ordered
      exact (pairwise_append.mp hordered).2.2 v hv last mem_cons_self
    · exact mem_singleton.mp hv ▸ .refl _

theorem viewList_oldestCopy (s : TrxSys) :
    s.readViewOldestCopyOrOpenNew.viewList = s.viewList ++ [(s.nextView, s.oldestCopy)] := by
  unfold readViewOldestCopyOrOpenNew
  split
  next hnone =>
    have hnil : s.viewList = [] := List.getLast?_eq_none_iff.mp hnone
    simp [addFirst, hnil]
  next => rfl

theorem viewList_closePurgeView (s : TrxSys) : s.closePurgeView.viewList.Sublist s.viewList := by
  unfold closePurgeView
  split
  · exact filter_sublist
  · exact List.Sublist.refl _

theorem viewList_trxPurge (s : TrxSys) :
    s.trxPurge.viewList = s.closePurgeView.viewList ++
      [(s.closePurgeView.nextView, s.closePurgeView.oldestCopy)] :=
  viewList_oldestCopy s.closePurgeView

theorem Inv.closePurgeView (h : Inv s) : Inv s.closePurgeView :=
  h.of_sublist (h.numbered.quiet closePurgeView_quiet) closePurgeView_quiet.progress
    (viewList_closePurgeView s)

theorem Inv.trxPurge (h : Inv s) : Inv s.trxPurge := by
  have hclosed := h.closePurgeView
  obtain ⟨hcovers, hnewer⟩ := hclosed.oldestCopy
  have hopen : Progress s.closePurgeView s.trxPurge := openPurgeView_quiet.progress
  refine ⟨h.numbered.quiet trxPurge_quiet, ?_, ?_⟩
  · rw [viewList_trxPurge]
    refine forall_mem_append.mpr ⟨fun v hv => (hclosed.covers v hv).progress hopen, ?_⟩
    exact forall_mem_singleton.mpr (hcovers.progress hopen)
  · rw [viewList_trxPurge]
    exact pairwise_append.mpr ⟨hclosed.ordered, pairwise_singleton _ _,
      fun v hv w hw => mem_singleton.mp hw ▸ hnewer v hv⟩

theorem step_inv (h : Inv s) {a : TrxAct} (hstep : s.step a = some s') : Inv s' := by
  have hnum := step_numbered h.numbered hstep
  have hp := step_progress hstep
  rcases step_cases hstep with hs | ⟨x, -, -, -, hs⟩ |
    ⟨x, hx, hstmt, v, hv | hv, hquiet, hviews⟩ | hs | ⟨-, hviews⟩
  · exact h.of_sublist hnum hp (hs ▸ List.Sublist.refl _)
  · exact h.of_sublist hnum hp (hs ▸ List.Sublist.refl _)
  · exact h.opened (opens_readViewOpenNow hx hstmt) hquiet (hv ▸ hviews)
  · exact h.opened (opens_cursorView hx hstmt) hquiet (hv ▸ hviews)
  · exact hs ▸ h.trxPurge
  · exact h.of_sublist hnum hp hviews

theorem reachable_inv (h : trxSys.Reachable s) : Inv s :=
  h.invariant (P := Inv) (fun _ => AtDbStart.inv) fun _ _ _ _ hinv hstep => step_inv hinv hstep

/-! ## History that no view needs -/

/-- From here on every view has at least this `low_limit_no`. -/
structure Floor (n : TrxNo) (s : TrxSys) : Prop where
  max : n ≤ s.maxTrxId
  running : ∀ x ∈ s.trxList, x.Running → n ≤ x.no
  views : ∀ v ∈ s.viewList, n ≤ v.2.lowLimitNo

variable {n : TrxNo}

theorem Covers.floor (h : Covers s v) (hviews : ∀ w ∈ s.viewList, v.lowLimitNo ≤ w.2.lowLimitNo) :
    Floor v.lowLimitNo s :=
  ⟨h.lowLimitNo_le, fun x hx hrun => h.numbered x hx (h.running x hx hrun), hviews⟩

theorem Floor.of_views (h : Floor n s) (hp : Progress s s')
    (hviews : ∀ v ∈ s'.viewList, n ≤ v.2.lowLimitNo) : Floor n s' := by
  have hmax : (s.maxTrxId : TrxNo) ≤ s'.maxTrxId := by exact_mod_cast hp.max_le
  refine ⟨h.max.trans hmax, fun y hy hrun => ?_, hviews⟩
  rcases hp.trx y hy with ⟨-, hno⟩ | ⟨x, hx, -, hrun', hno | hno⟩
  · exact h.max.trans hno
  · exact hno ▸ h.running x hx (hrun' hrun)
  · exact h.max.trans hno

theorem Floor.opened (h : Floor n s) {hide : Trx → Bool} {crTrxId : TrxId}
    (hopen : Opens s hide crTrxId) : n ≤ hopen.view.lowLimitNo :=
  (le_collect_lowLimitNo ..).mpr
    ⟨h.max, fun x hx hhide => h.running x hx (hopen.running x hx hhide)⟩

theorem Floor.trxPurge (h : Floor n s) : Floor n s.trxPurge := by
  have hclosed : Floor n s.closePurgeView :=
    h.of_views closePurgeView_quiet.progress fun v hv =>
      h.views v ((viewList_closePurgeView s).subset hv)
  have hcopy : n ≤ s.closePurgeView.oldestCopy.lowLimitNo := by
    unfold TrxSys.oldestCopy
    split
    next => exact hclosed.opened (opens_purge _)
    next last hlast => exact hclosed.views last (List.mem_of_getLast? hlast)
  refine h.of_views trxPurge_quiet.progress ?_
  rw [viewList_trxPurge]
  exact forall_mem_append.mpr ⟨hclosed.views, forall_mem_singleton.mpr hcopy⟩

theorem step_floor (h : Floor n s) {a : TrxAct} (hstep : s.step a = some s') : Floor n s' := by
  have hp := step_progress hstep
  rcases step_cases hstep with hs | ⟨x, -, -, -, hs⟩ |
    ⟨x, hx, hstmt, v, hv | hv, -, hviews⟩ | hs | ⟨-, hviews⟩
  · exact h.of_views hp (hs ▸ h.views)
  · exact h.of_views hp (hs ▸ h.views)
  · refine h.of_views hp (hviews ▸ forall_mem_cons.mpr ⟨?_, h.views⟩)
    exact hv ▸ h.opened (opens_readViewOpenNow hx hstmt)
  · refine h.of_views hp (hviews ▸ forall_mem_cons.mpr ⟨?_, h.views⟩)
    exact hv ▸ h.opened (opens_cursorView hx hstmt)
  · exact hs ▸ h.trxPurge
  · exact h.of_views hp fun v hv => h.views v (hviews.subset hv)

theorem run_floor (h : Floor n s) {acts : List TrxAct} (hrun : trxSys.run s acts = some s') :
    Floor n s' :=
  Lib.System.run_invariant (P := Floor n) (fun _ _ _ hf hstep => step_floor hf hstep) h hrun

theorem Inv.floor_trxPurge (h : Inv s) :
    Floor s.closePurgeView.oldestCopy.lowLimitNo s.trxPurge := by
  obtain ⟨hcovers, hnewer⟩ := h.closePurgeView.oldestCopy
  refine (hcovers.progress openPurgeView_quiet.progress).floor ?_
  rw [viewList_trxPurge]
  exact forall_mem_append.mpr
    ⟨fun v hv => (hnewer v hv).lowLimitNo_le, forall_mem_singleton.mpr le_rfl⟩

/-- A transaction that an open view does not see has, or will get, a number of at least the
`low_limit_no` of the view.  Hence the history below the `low_limit_no` of the view that
purge opens is seen by every view that is open then or later. -/
theorem hidden_lowLimitNo_le (h : trxSys.Reachable s) :
    (∀ v ∈ s.viewList, ∀ acts s', trxSys.run s acts = some s' →
      (∀ x ∈ s'.trxList, ¬ v.2.sees x.id → v.2.lowLimitNo ≤ x.no) ∧
      ∀ t n, (t, n) ∈ s'.history → ¬ v.2.sees t → v.2.lowLimitNo ≤ n) ∧
    ∀ acts s', trxSys.run s.trxPurge acts = some s' → ∀ v ∈ s'.viewList,
      ∀ t n, (t, n) ∈ s'.history → n < s.closePurgeView.oldestCopy.lowLimitNo → v.2.sees t := by
  have hinv := reachable_inv h
  refine ⟨fun v hv acts s' hrun => ?_, fun acts s' hrun v hv t n hhistory hlt => ?_⟩
  · have hcovers := (hinv.covers v hv).progress (run_progress hrun)
    refine ⟨fun x hx hsees => hcovers.numbered x hx (ReadView.hides_of_not_sees hsees),
      fun t n hhistory hsees => ?_⟩
    exact hcovers.history (t, n) hhistory (ReadView.hides_of_not_sees hsees)
  · have hpurge : trxSys.step s .purge = some s.trxPurge := rfl
    have hinv' := reachable_inv ((h.next hpurge).run hrun)
    have hfloor := (run_floor hinv.floor_trxPurge hrun).views v hv
    by_contra hsees
    have hle := (hinv'.covers v hv).history (t, n) hhistory (ReadView.hides_of_not_sees hsees)
    exact (hfloor.trans hle).not_gt hlt

def emptySys : TrxSys where
  maxTrxId := 1
  trxList := []
  viewList := []
  nextView := 0
  purgeView := none
  cursorViews := []
  history := []
  descending := .nil
  lt_max _ h := absurd h not_mem_nil
  pos _ h := absurd h not_mem_nil
  max_pos := Nat.one_pos

theorem emptySys_reachable : trxSys.Reachable emptySys :=
  .start ⟨rfl, rfl, rfl, fun _ h => absurd h not_mem_nil, fun _ h => absurd h not_mem_nil,
    fun _ h => absurd h not_mem_nil⟩

def readerAndWriter : List TrxAct := [.start, .start, .assignReadView 1, .serialise 2]

theorem hidden_lowLimitNo_le_readerAndWriter :
    ∃ s, trxSys.Reachable s ∧ (2, 3) ∈ s.history ∧
      ∃ v ∈ s.viewList, ¬ v.2.sees 2 ∧ v.2.lowLimitNo ≤ (3 : ℕ) := by
  obtain ⟨s, hs, hp⟩ := emptySys_reachable.exists_of_run readerAndWriter
    (fun s => (2, 3) ∈ s.history ∧ ∃ v ∈ s.viewList, ¬ v.2.sees 2) (by decide)
  obtain ⟨hhistory, v, hv, hsees⟩ := of_decide_eq_true hp
  have hle := ((hidden_lowLimitNo_le hs).1 v hv [] s rfl).2 2 3 hhistory hsees
  exact ⟨s, hs, hhistory, v, hv, hsees, hle⟩

/-! ## What a view sees -/

theorem sees_readViewOpenNow {x : Trx} (hx : x ∈ s.trxList) (t : TrxId) :
    (s.readViewOpenNow x.id fun _ => s.lt_max x hx).sees t = true ↔
      t = x.id ∨ t < s.maxTrxId ∧ ∀ y ∈ s.trxList, y.id = t → ¬ y.Running := by
  have hmem : t ∈ (s.readViewOpenNow x.id fun _ => s.lt_max x hx).trxIds ↔
      ∃ y ∈ s.trxList, (y.id ≠ x.id ∧ y.Running) ∧ y.id = t := by
    refine mem_collect_trxIds.trans ?_
    simp
  rw [ReadView.sees_iff, hmem]
  constructor
  · rintro ⟨hlt, hout⟩
    by_cases hcr : t = x.id
    · exact .inl hcr
    · refine .inr ⟨hlt, fun y hy hid hrun => hout ⟨y, hy, ⟨?_, hrun⟩, hid⟩⟩
      exact fun hxy => hcr (hid.symm.trans hxy)
  · rintro (rfl | ⟨hlt, hrun⟩)
    · exact ⟨s.lt_max x hx, fun ⟨y, _, ⟨hne, _⟩, hid⟩ => hne hid⟩
    · exact ⟨hlt, fun ⟨y, hy, ⟨_, hrun'⟩, hid⟩ => hrun y hy hid hrun'⟩

theorem creatorTrxId_oldestCopy (s : TrxSys) : s.oldestCopy.creatorTrxId = 0 := by
  unfold oldestCopy
  split <;> rfl

theorem Inv.not_hides_of_sees (h : Inv s) (hsees : s.oldestCopy.sees t)
    {v : ViewId × ReadView} (hv : v ∈ s.viewList) : ¬ v.2.Hides t := by
  intro hhides
  rcases (h.oldestCopy.2 v hv).hides t hhides with hlow | hmem | ⟨hne, -⟩
  · exact ((ReadView.sees_iff _ t).mp hsees).1.not_ge hlow
  · exact ((ReadView.sees_iff _ t).mp hsees).2 hmem
  · exact hne (creatorTrxId_oldestCopy s)

/-- What a view of `read_view_open_now` sees; and the view of purge sees a transaction only
if every open view sees it and it created none of them, nor the view of purge. -/
theorem readView_sees (h : trxSys.Reachable s) :
    (∀ x, ∀ hx : x ∈ s.trxList, ∀ t,
      (s.readViewOpenNow x.id fun _ => s.lt_max x hx).sees t = true ↔
        t = x.id ∨ t < s.maxTrxId ∧ ∀ y ∈ s.trxList, y.id = t → ¬ y.Running) ∧
    ∀ s₀, s₀ = s ∨ s₀ = s.closePurgeView → ∀ t, s₀.oldestCopy.sees t = true →
      (∀ v ∈ s₀.viewList, v.2.sees t = true) ∧
      (t ≠ 0 → t ≠ s₀.oldestCopy.creatorTrxId ∧ ∀ v ∈ s₀.viewList, t ≠ v.2.creatorTrxId) := by
  refine ⟨fun x hx t => sees_readViewOpenNow hx t, fun s₀ hs₀ t hsees => ?_⟩
  have hinv : Inv s₀ := by
    rcases hs₀ with rfl | rfl
    · exact reachable_inv h
    · exact (reachable_inv h).closePurgeView
  refine ⟨fun v hv => ?_, fun ht => ⟨creatorTrxId_oldestCopy s₀ ▸ ht, fun v hv hcr => ?_⟩⟩
  · exact of_not_not (mt ReadView.hides_of_not_sees (hinv.not_hides_of_sees hsees hv))
  · exact hinv.not_hides_of_sees hsees hv (.inr (.inr ⟨hcr ▸ ht, hcr⟩))

/-- A writer commits before the reader opens its view: a view that the reader opens now, the view
of purge and the view that is open see the writer. -/
theorem readView_sees_writer :
    ∃ s, trxSys.Reachable s ∧
      (∃ x, ∃ hx : x ∈ s.trxList,
        x.id ≠ 2 ∧ (s.readViewOpenNow x.id fun _ => s.lt_max x hx).sees 2 = true) ∧
      s.viewList ≠ [] ∧ s.oldestCopy.sees 2 = true ∧ ∀ v ∈ s.viewList, v.2.sees 2 = true := by
  obtain ⟨s, hs, hp⟩ := emptySys_reachable.exists_of_run
    [.start, .start, .serialise 2, .commit 2, .assignReadView 1]
    (fun s => (∃ x ∈ s.trxList, x.id ≠ 2) ∧
      (2 < s.maxTrxId ∧ ∀ y ∈ s.trxList, y.id = 2 → ¬ y.Running) ∧
      s.viewList ≠ [] ∧ s.oldestCopy.sees 2 = true) (by decide)
  obtain ⟨⟨x, hx, hid⟩, hended, hopen, hsees⟩ := of_decide_eq_true hp
  obtain ⟨hnow, hpurge⟩ := readView_sees hs
  exact ⟨s, hs, ⟨x, hx, hid, (hnow x hx 2).mpr (.inr hended)⟩, hopen, hsees,
    (hpurge s (.inl rfl) 2 hsees).1⟩

end TrxSys

end MySQL.Innobase
