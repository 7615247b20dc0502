import Mathlib

/-!
# Deterministic labelled systems and their runs

A system is a set of initial states with a partial step function.  The label
of a step carries every choice that the environment makes, so one label has at
most one successor.  Safety statements are proved once per step and are then
carried along every run.
-/

namespace MySQL.Lib

/-- Initial states and a partial step function; `none` means that the labelled
step is not enabled. -/
structure System (σ α : Type*) where
  init : σ → Prop
  step : σ → α → Option σ

namespace System

variable {σ α : Type*} (S : System σ α)

def run (s : σ) : List α → Option σ
  | [] => some s
  | a :: as => (S.step s a).bind fun t => run t as

@[simp] theorem run_nil (s : σ) : S.run s [] = some s := rfl

theorem run_cons (s : σ) (a : α) (as : List α) :
    S.run s (a :: as) = (S.step s a).bind fun t => S.run t as := rfl

theorem run_append (s : σ) (as bs : List α) :
    S.run s (as ++ bs) = (S.run s as).bind fun t => S.run t bs := by
  induction as generalizing s with
  | nil => rfl
  | cons a as ih =>
    cases h : S.step s a with
    | none => simp [run, h]
    | some t => simpa [run, h] using ih t

/-- States of runs that begin in an initial state. -/
inductive Reachable : σ → Prop
  | start {s : σ} : S.init s → Reachable s
  | next {s t : σ} {a : α} : Reachable s → S.step s a = some t → Reachable t

variable {S}

theorem Reachable.invariant {P : σ → Prop} (hinit : ∀ s, S.init s → P s)
    (hstep : ∀ s a t, S.Reachable s → P s → S.step s a = some t → P t)
    {s : σ} (h : S.Reachable s) : P s := by
  induction h with
  | start hs => exact hinit _ hs
  | next hs hst ih => exact hstep _ _ _ hs ih hst

theorem run_invariant {P : σ → Prop}
    (hstep : ∀ s a t, P s → S.step s a = some t → P t) {as : List α} {s t : σ}
    (hs : P s) (h : S.run s as = some t) : P t := by
  induction as generalizing s with
  | nil =>
    have hst : s = t := by simpa using h
    exact hst ▸ hs
  | cons a as ih =>
    obtain ⟨u, hu, hrest⟩ := Option.bind_eq_some_iff.mp h
    exact ih (hstep s a u hs hu) hrest

theorem Reachable.run {as : List α} {s t : σ} (hs : S.Reachable s)
    (h : S.run s as = some t) : S.Reachable t :=
  run_invariant (fun _ _ _ hu hst => hu.next hst) hs h

theorem Reachable.exists_of_run {s : σ} (hs : S.Reachable s) (as : List α) (p : σ → Bool)
    (h : (S.run s as).any p = true) : ∃ t, S.Reachable t ∧ p t = true := by
  obtain ⟨t, ht, hp⟩ := (Option.any_eq_true ..).mp h
  exact ⟨t, hs.run ht, hp⟩

section Along

variable (S)

def AlongStates (P : σ → Prop) : σ → List α → Prop
  | s, [] => P s
  | s, a :: as => P s ∧ ∀ t, S.step s a = some t → AlongStates P t as

def AlongSteps (Q : σ → α → Prop) : σ → List α → Prop
  | _, [] => True
  | s, a :: as => Q s a ∧ ∀ t, S.step s a = some t → AlongSteps Q t as

variable {S}

/-- `P` holds along a run in which every step does what `Q` says, given an invariant `I` of such
runs. -/
theorem alongStates_of_alongSteps {I P : σ → Prop} {Q : σ → α → Prop} (hI : ∀ s, I s → P s)
    (hstep : ∀ s a t, I s → Q s a → S.step s a = some t → I t) {s : σ} (hs : I s) {as : List α}
    (h : S.AlongSteps Q s as) : S.AlongStates P s as := by
  induction as generalizing s with
  | nil => exact hI s hs
  | cons a as ih => exact ⟨hI s hs, fun t ht => ih (hstep s a t hs h.1 ht) (h.2 t ht)⟩

end Along

end System

end MySQL.Lib
