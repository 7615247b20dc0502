import MySQL.Innobase.TrxSys

/-!
# What purge may remove

A view *hides* a transaction when the copy that purge would make of it does not see the
transaction: its changes may still be read from history through the view.  Every hidden
transaction has a serialisation number of at least the `low_limit_no` of the view, or will
get one; so history below the `low_limit_no` of the oldest view is needed by no view, and by
none that is opened later.
-/

namespace MySQL.Innobase

open List

def ReadView.Hides (v : ReadView) (t : TrxId) : Prop :=
  v.lowLimitId ≤ t ∨ t ∈ v.trxIds ∨ v.creatorTrxId ≠ 0 ∧ t = v.creatorTrxId

theorem ReadView.hides_of_not_sees {v : ReadView} {t : TrxId} (h : ¬ v.sees t) : v.Hides t := by
  rw [v.sees_iff, not_and_or, not_lt, not_not] at h
  rcases h with hlow | hmem
  · exact .inl hlow
  · exact .inr (.inl hmem)

theorem ReadView.hides_iff (v : ReadView) (t : TrxId) : v.Hides t ↔ ¬ v.copyForPurge.sees t := by
  rw [ReadView.sees_iff, not_and_or, not_lt, not_not]
  exact or_congr_right mem_copyTrxIds.symm

theorem ReadView.hides_copyForPurge (v : ReadView) (t : TrxId) :
    v.copyForPurge.Hides t ↔ v.Hides t := by
  rw [v.hides_iff, v.copyForPurge.sees_iff, not_and_or, Hides]
  have hcreator : v.copyForPurge.creatorTrxId = 0 := rfl
  simp [hcreator]

namespace TrxSys

variable {s s' s'' : TrxSys} {v : ReadView} {id : TrxId}

theorem eq_of_id_eq {x y : Trx} (hx : x ∈ s.trxList) (hy : y ∈ s.trxList) (h : x.id = y.id) :
    x = y := by
  by_contra hne
  have hids : s.trxList.Pairwise fun x y => x.id ≠ y.id := s.descending.imp fun hlt => hlt.ne'
  have : Std.Symm fun x y : Trx => x.id ≠ y.id := ⟨fun _ _ hxy => hxy.symm⟩
  exact hids.forall hx hy hne h

theorem withTrx_cases {p : Trx → Prop} [DecidablePred p]
    {f : (x : Trx) → x ∈ s.trxList → TrxSys} (h : s.withTrx id p f = some s') :
    ∃ x, ∃ hx : x ∈ s.trxList, x.id = id ∧ p x ∧ s' = f x hx := by
  unfold withTrx at h
  split at h
  next x hfind =>
    have hid : x.id = id := by simpa using List.find?_some hfind
    split at h
    next hp => exact ⟨x, List.mem_of_find?_eq_some hfind, hid, hp, (Option.some.inj h).symm⟩
    next => cases h
  next => cases h

/-! ## What a step does to the transactions -/

/-- The transaction may have changed, but not in what concerns its number. -/
structure KeepsNo (x y : Trx) : Prop where
  id_eq : y.id = x.id
  no_eq : y.no = x.no
  inCommit_eq : y.inCommit = x.inCommit
  running : y.Running → x.Running ∧ y.isRecovered = x.isRecovered

/-- No transaction started and none got a number. -/
structure Quiet (s s' : TrxSys) : Prop where
  max_eq : s'.maxTrxId = s.maxTrxId
  history_eq : s'.history = s.history
  trx : ∀ y ∈ s'.trxList, ∃ x ∈ s.trxList, KeepsNo x y

theorem KeepsNo.refl (x : Trx) : KeepsNo x x := ⟨rfl, rfl, rfl, fun h => ⟨h, rfl⟩⟩

theorem KeepsNo.trans {x y z : Trx} (h₁ : KeepsNo x y) (h₂ : KeepsNo y z) : KeepsNo x z := by
  refine ⟨h₂.id_eq.trans h₁.id_eq, h₂.no_eq.trans h₁.no_eq, h₂.inCommit_eq.trans h₁.inCommit_eq,
    fun hz => ?_⟩
  obtain ⟨hy, hrec⟩ := h₂.running hz
  obtain ⟨hx, hrec'⟩ := h₁.running hy
  exact ⟨hx, hrec.trans hrec'⟩

theorem Quiet.of_subset (hmax : s'.maxTrxId = s.maxTrxId) (hhistory : s'.history = s.history)
    (htrx : s'.trxList ⊆ s.trxList) : Quiet s s' :=
  ⟨hmax, hhistory, fun y hy => ⟨y, htrx hy, .refl y⟩⟩

theorem Quiet.of_views (hmax : s'.maxTrxId = s.maxTrxId) (hhistory : s'.history = s.history)
    (htrx : s'.trxList = s.trxList) : Quiet s s' :=
  .of_subset hmax hhistory (htrx ▸ List.Subset.refl _)

theorem Quiet.modify (h : Quiet s s') (id : TrxId) {f : Trx → Trx}
    {hf : ∀ x, (f x).id = x.id} (hkeeps : ∀ x ∈ s'.trxList, x.id = id → KeepsNo x (f x)) :
    Quiet s (s'.modify id f hf) := by
  refine ⟨h.max_eq, h.history_eq, fun y hy => ?_⟩
  obtain ⟨x, hx, rfl⟩ := List.mem_map.mp hy
  obtain ⟨x', hx', hkeep⟩ := h.trx x hx
  refine ⟨x', hx', ?_⟩
  split
  next hid => exact hkeep.trans (hkeeps x hx hid)
  next => exact hkeep

theorem Quiet.trans (h₁ : Quiet s s') (h₂ : Quiet s' s'') : Quiet s s'' := by
  refine ⟨h₂.max_eq.trans h₁.max_eq, h₂.history_eq.trans h₁.history_eq, fun z hz => ?_⟩
  obtain ⟨y, hy, hkeep⟩ := h₂.trx z hz
  obtain ⟨x, hx, hkeep'⟩ := h₁.trx y hy
  exact ⟨x, hx, hkeep'.trans hkeep⟩

/-- What a step can do. -/
inductive Stepped (s s' : TrxSys) : Prop
  | start (h : s' = s.trxStartLow)
  | serialise (x : Trx) (hx : x ∈ s.trxList) (hrun : x.Running) (hcommit : x.inCommit = false)
      (h : s' = s.trxSerialisationNumberGet x.id)
  /-- A session opens a view in its transaction. -/
  | opened (x : Trx) (hx : x ∈ s.trxList) (hx' : x.InStatement) (v : ReadView)
      (hv : v = s.readViewOpenNow x.id (fun _ => s.lt_max x hx) ∨
        v = s.cursorView x.id fun _ => s.lt_max x hx)
      (hquiet : Quiet s s') (hviews : s'.viewList = (s.nextView, v) :: s.viewList)
  | purge (h : s' = s.trxPurge)
  /-- No view is opened. -/
  | other (hquiet : Quiet s s') (hviews : s'.viewList.Sublist s.viewList)

theorem closeGlobalReadView_stepped {x : Trx} {i : ViewId} :
    Stepped s (s.closeGlobalReadView x i) := by
  have hclose : Quiet s (s.readViewClose i) := .of_views rfl rfl rfl
  exact .other (hclose.modify _ fun _ _ _ => ⟨rfl, rfl, rfl, fun h => ⟨h, rfl⟩⟩)
    filter_sublist

theorem step_cases {a : TrxAct} (h : s.step a = some s') : Stepped s s' := by
  have hrefl : Quiet s s := .of_views rfl rfl rfl
  cases a <;> simp only [step] at h
  case start => exact .start (Option.some.inj h).symm
  case assignReadView id =>
    obtain ⟨x, hx, -, hstmt, rfl⟩ := withTrx_cases h
    unfold trxAssignReadView
    split
    · exact .other hrefl (List.Sublist.refl _)
    · have hadd : Quiet s (s.addFirst (s.readViewOpenNow x.id fun _ => s.lt_max x hx)) :=
        .of_views rfl rfl rfl
      exact .opened x hx hstmt _ (.inl rfl)
        (hadd.modify _ fun _ _ _ => ⟨rfl, rfl, rfl, fun h => ⟨h, rfl⟩⟩) rfl
  case closeForMysql id =>
    obtain ⟨x, -, -, -, rfl⟩ := withTrx_cases h
    exact closeGlobalReadView_stepped
  case cursorCreate id =>
    obtain ⟨x, hx, -, hstmt, rfl⟩ := withTrx_cases h
    exact .opened x hx hstmt _ (.inr rfl) (.of_views rfl rfl rfl) rfl
  case cursorClose id i =>
    split at h
    next =>
      cases h
      have hclose : Quiet s (s.readViewClose i) := .of_views rfl rfl rfl
      have hmodify : Quiet s ((s.readViewClose i).modify id
          (fun x => { x with readView := x.globalReadView }) fun _ => rfl) :=
        hclose.modify id fun _ _ _ => ⟨rfl, rfl, rfl, fun h => ⟨h, rfl⟩⟩
      exact .other ⟨hmodify.max_eq, hmodify.history_eq, hmodify.trx⟩ filter_sublist
    next => cases h
  case cursorSet id c =>
    split at h
    next =>
      cases h
      exact .other (hrefl.modify id fun _ _ _ => ⟨rfl, rfl, rfl, fun h => ⟨h, rfl⟩⟩)
        (List.Sublist.refl _)
    next => cases h
  case prepare id =>
    obtain ⟨x, hx, rfl, hstmt, rfl⟩ := withTrx_cases h
    refine .other (hrefl.modify x.id fun y hy hid => ⟨rfl, rfl, rfl, fun _ => ⟨?_, rfl⟩⟩)
      (List.Sublist.refl _)
    exact eq_of_id_eq hx hy hid.symm ▸ .inl hstmt.1
  case serialise id =>
    obtain ⟨x, hx, rfl, ⟨hrun, hcommit⟩, rfl⟩ := withTrx_cases h
    exact .serialise x hx hrun hcommit rfl
  case commit id =>
    obtain ⟨x, -, -, -, rfl⟩ := withTrx_cases h
    refine .other (hrefl.modify id fun y _ _ => ⟨rfl, rfl, rfl, fun h => ?_⟩) (List.Sublist.refl _)
    rcases h with h | h <;> cases h
  case closeAtCommit id =>
    obtain ⟨x, -, -, -, rfl⟩ := withTrx_cases h
    exact closeGlobalReadView_stepped
  case finish id =>
    obtain ⟨x, -, -, -, rfl⟩ := withTrx_cases h
    exact .other (.of_subset rfl rfl filter_sublist.subset) (List.Sublist.refl _)
  case purge => exact .purge (Option.some.inj h).symm

theorem closePurgeView_quiet : Quiet s s.closePurgeView := by
  unfold closePurgeView
  split <;> exact .of_views rfl rfl rfl

theorem openPurgeView_quiet : Quiet s.closePurgeView s.trxPurge := by
  have hopen : Quiet s.closePurgeView s.closePurgeView.readViewOldestCopyOrOpenNew := by
    unfold readViewOldestCopyOrOpenNew
    split <;> exact .of_views rfl rfl rfl
  exact ⟨hopen.max_eq, hopen.history_eq, hopen.trx⟩

theorem trxPurge_quiet : Quiet s s.trxPurge :=
  closePurgeView_quiet.trans openPurgeView_quiet

/-! ## Progress -/

/-- What is true of the transactions between two states of a run. -/
structure Progress (s s' : TrxSys) : Prop where
  max_le : s.maxTrxId ≤ s'.maxTrxId
  /-- A transaction of the later state is new, or it was there and has its old number or a
  new one. -/
  trx : ∀ y ∈ s'.trxList, s.maxTrxId ≤ y.id ∧ s.maxTrxId ≤ y.no ∨
    ∃ x ∈ s.trxList, x.id = y.id ∧ (y.Running → x.Running) ∧
      (y.no = x.no ∨ s.maxTrxId ≤ y.no)
  history : ∀ h ∈ s'.history, h ∈ s.history ∨ s.maxTrxId ≤ h.2

theorem Progress.refl (s : TrxSys) : Progress s s where
  max_le := le_rfl
  trx y hy := .inr ⟨y, hy, rfl, id, .inl rfl⟩
  history _ := .inl

theorem Progress.trans (h₁ : Progress s s') (h₂ : Progress s' s'') : Progress s s'' where
  max_le := h₁.max_le.trans h₂.max_le
  trx z hz := by
    have hmax : (s.maxTrxId : TrxNo) ≤ s'.maxTrxId := by exact_mod_cast h₁.max_le
    rcases h₂.trx z hz with ⟨hid, hno⟩ | ⟨y, hy, hid, hrun, hno⟩
    · exact .inl ⟨h₁.max_le.trans hid, hmax.trans hno⟩
    · rcases h₁.trx y hy with ⟨hid', hno'⟩ | ⟨x, hx, hid', hrun', hno'⟩
      · refine .inl ⟨hid ▸ hid', ?_⟩
        rcases hno with hno | hno
        · exact hno ▸ hno'
        · exact hmax.trans hno
      · refine .inr ⟨x, hx, hid'.trans hid, hrun' ∘ hrun, ?_⟩
        rcases hno with hno | hno
        · exact hno ▸ hno'
        · exact .inr (hmax.trans hno)
  history h hh := by
    rcases h₂.history h hh with hh | hh
    · exact h₁.history h hh
    · exact .inr (h₁.max_le.trans hh)

theorem Quiet.progress (h : Quiet s s') : Progress s s' where
  max_le := h.max_eq.ge
  trx y hy := by
    obtain ⟨x, hx, hkeep⟩ := h.trx y hy
    exact .inr ⟨x, hx, hkeep.id_eq.symm, fun hrun => (hkeep.running hrun).1, .inl hkeep.no_eq⟩
  history h' hh' := .inl (h.history_eq ▸ hh')

theorem trxStartLow_progress : Progress s s.trxStartLow where
  max_le := Nat.le_succ _
  trx := by
    refine forall_mem_cons.mpr ⟨.inl ⟨le_rfl, le_top⟩, fun y hy => ?_⟩
    exact .inr ⟨y, hy, rfl, id, .inl rfl⟩
  history _ := .inl

theorem trxSerialisationNumberGet_progress : Progress s (s.trxSerialisationNumberGet id) where
  max_le := Nat.le_succ _
  trx := by
    refine List.forall_mem_map.mpr fun x hx => ?_
    split
    next => exact .inr ⟨x, hx, rfl, fun h => h, .inr le_rfl⟩
    next => exact .inr ⟨x, hx, rfl, fun h => h, .inl rfl⟩
  history := forall_mem_cons.mpr ⟨.inr le_rfl, fun _ => .inl⟩

theorem step_progress {a : TrxAct} (h : s.step a = some s') : Progress s s' := by
  rcases step_cases h with h | ⟨x, -, -, -, h⟩ | ⟨x, -, -, v, -, hquiet, -⟩ | h | ⟨hquiet, -⟩
  · exact h ▸ trxStartLow_progress
  · exact h ▸ trxSerialisationNumberGet_progress
  · exact hquiet.progress
  · exact h ▸ trxPurge_quiet.progress
  · exact hquiet.progress

theorem run_progress {acts : List TrxAct} (h : trxSys.run s acts = some s') : Progress s s' :=
  Lib.System.run_invariant (fun _ _ _ hp hstep => hp.trans (step_progress hstep))
    (.refl s) h

/-! ## The numbers of hidden transactions -/

/-- What an open view guarantees, and keeps to guarantee after it was closed. -/
structure Covers (s : TrxSys) (v : ReadView) : Prop where
  lowLimitId_le : v.lowLimitId ≤ s.maxTrxId
  lowLimitNo_le : v.lowLimitNo ≤ s.maxTrxId
  running : ∀ x ∈ s.trxList, x.Running → v.Hides x.id
  numbered : ∀ x ∈ s.trxList, v.Hides x.id → v.lowLimitNo ≤ x.no
  history : ∀ h ∈ s.history, v.Hides h.1 → v.lowLimitNo ≤ h.2

theorem Covers.progress (h : Covers s v) (hp : Progress s s') : Covers s' v := by
  have hmax : (s.maxTrxId : TrxNo) ≤ s'.maxTrxId := by exact_mod_cast hp.max_le
  refine ⟨h.lowLimitId_le.trans hp.max_le, h.lowLimitNo_le.trans hmax, fun y hy hrun => ?_,
    fun y hy hhides => ?_, fun e he hhides => ?_⟩
  · rcases hp.trx y hy with ⟨hid, -⟩ | ⟨x, hx, hid, hrun', -⟩
    · exact .inl (h.lowLimitId_le.trans hid)
    · exact hid ▸ h.running x hx (hrun' hrun)
  · rcases hp.trx y hy with ⟨-, hno⟩ | ⟨x, hx, hid, -, hno | hno⟩
    · exact h.lowLimitNo_le.trans hno
    · exact hno ▸ h.numbered x hx (hid ▸ hhides)
    · exact h.lowLimitNo_le.trans hno
  · rcases hp.history e he with he | he
    · exact h.history e he hhides
    · exact h.lowLimitNo_le.trans (by exact_mod_cast he)

/-- A session has no number before it commits, and a number belongs to one commit. -/
structure Numbered (s : TrxSys) : Prop where
  session : ∀ x ∈ s.trxList, x.Running → x.isRecovered = false → x.inCommit = false → x.no = ⊤
  history : ∀ h ∈ s.history, h.1 < s.maxTrxId ∧
    ∀ x ∈ s.trxList, x.id = h.1 → x.Running → x.inCommit = true ∧ x.no = h.2

theorem AtDbStart.numbered (h : AtDbStart s) : Numbered s where
  session x hx _ hrec _ := by
    have htrue := (h.recovered x hx).1
    exact absurd (htrue.symm.trans hrec) Bool.noConfusion
  history e he := by
    obtain ⟨hlt, hrun⟩ := h.history e he
    exact ⟨hlt, fun x hx hid hrun' => absurd hrun' (hrun x hx hid)⟩

theorem Numbered.quiet (h : Numbered s) (hq : Quiet s s') : Numbered s' where
  session y hy hrun hrec hcommit := by
    obtain ⟨x, hx, hkeep⟩ := hq.trx y hy
    obtain ⟨hrun', hrec'⟩ := hkeep.running hrun
    rw [hkeep.no_eq]
    exact h.session x hx hrun' (hrec' ▸ hrec) (hkeep.inCommit_eq ▸ hcommit)
  history e he := by
    obtain ⟨hlt, hnumber⟩ := h.history e (hq.history_eq ▸ he)
    refine ⟨hq.max_eq ▸ hlt, fun y hy hid hrun => ?_⟩
    obtain ⟨x, hx, hkeep⟩ := hq.trx y hy
    rw [hkeep.no_eq, hkeep.inCommit_eq]
    exact hnumber x hx (hkeep.id_eq ▸ hid) (hkeep.running hrun).1

theorem Numbered.trxStartLow (h : Numbered s) : Numbered s.trxStartLow where
  session := forall_mem_cons.mpr ⟨fun _ _ _ => rfl, h.session⟩
  history e he := by
    obtain ⟨hlt, hnumber⟩ := h.history e he
    refine ⟨hlt.trans (Nat.lt_succ_self _), forall_mem_cons.mpr ⟨fun hid => ?_, hnumber⟩⟩
    exact absurd hid hlt.ne'

theorem Numbered.trxSerialisationNumberGet (h : Numbered s) {x : Trx} (hx : x ∈ s.trxList)
    (hrun : x.Running) (hcommit : x.inCommit = false) :
    Numbered (s.trxSerialisationNumberGet x.id) where
  session := by
    refine List.forall_mem_map.mpr fun y hy => ?_
    split
    next => exact fun _ _ hcommit => absurd hcommit Bool.noConfusion
    next => exact h.session y hy
  history := by
    refine forall_mem_cons.mpr ⟨⟨Nat.lt_succ_of_lt (s.lt_max x hx), ?_⟩, fun e he => ?_⟩
    · refine List.forall_mem_map.mpr fun y hy => ?_
      split
      next => exact fun _ _ => ⟨rfl, rfl⟩
      next hne => exact fun hid => absurd hid hne
    · -- The transaction had no number, so the earlier numbers are not its own.
      obtain ⟨hlt, hnumber⟩ := h.history e he
      refine ⟨hlt.trans (Nat.lt_succ_self _), List.forall_mem_map.mpr fun y hy => ?_⟩
      split
      next hid =>
        intro hid' _
        have htrue := (hnumber x hx (hid.symm.trans hid') hrun).1
        exact absurd (htrue.symm.trans hcommit) Bool.noConfusion
      next => exact hnumber y hy

theorem step_numbered (h : Numbered s) {a : TrxAct} (hstep : s.step a = some s') : Numbered s' := by
  rcases step_cases hstep with hs | ⟨x, hx, hrun, hcommit, hs⟩ | ⟨x, -, -, v, -, hquiet, -⟩ | hs |
    ⟨hquiet, -⟩
  · exact hs ▸ h.trxStartLow
  · exact hs ▸ h.trxSerialisationNumberGet hx hrun hcommit
  · exact h.quiet hquiet
  · exact hs ▸ h.quiet trxPurge_quiet
  · exact h.quiet hquiet

end TrxSys

end MySQL.Innobase
