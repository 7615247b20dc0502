import Mathlib

/-!
# Following a successor function to a stop

`EndsAt next stop x y`: following `next` from `x` stops, and it stops at `y`. A chase need not
stop: it may run round a cycle that no stop lies on. `Follows next stop x y` is a part of a chase,
from `x` to `y` without passing a stop.
-/

namespace MySQL.Lib

variable {σ : Type*}

inductive EndsAt (next : σ → σ) (stop : σ → Prop) : σ → σ → Prop
  | here {x : σ} (hx : stop x) : EndsAt next stop x x
  | step {x y : σ} (hx : ¬stop x) (h : EndsAt next stop (next x) y) : EndsAt next stop x y

def Follows (next : σ → σ) (stop : σ → Prop) : σ → σ → Prop :=
  Relation.ReflTransGen fun x y => ¬stop x ∧ next x = y

variable {next : σ → σ} {stop : σ → Prop} {x y z : σ}

namespace EndsAt

theorem stop_end (h : EndsAt next stop x y) : stop y := by
  induction h with
  | here hx => exact hx
  | step _ _ ih => exact ih

theorem eq_of_stop (h : EndsAt next stop x y) (hx : stop x) : y = x := by
  cases h with
  | here => rfl
  | step hx' _ => exact absurd hx hx'

theorem of_not_stop (h : EndsAt next stop x y) (hx : ¬stop x) : EndsAt next stop (next x) y := by
  cases h with
  | here hx' => exact absurd hx' hx
  | step _ h => exact h

theorem unique (hy : EndsAt next stop x y) (hz : EndsAt next stop x z) : y = z := by
  induction hy with
  | here hx => exact (hz.eq_of_stop hx).symm
  | step hx _ ih => exact ih (hz.of_not_stop hx)

theorem congr {next' : σ → σ} {stop' : σ → Prop} (h : EndsAt next stop x y)
    (hs : ∀ z, stop' z ↔ stop z) (hn : ∀ z, ¬stop z → next' z = next z) :
    EndsAt next' stop' x y := by
  induction h with
  | here hx => exact .here ((hs _).mpr hx)
  | step hx _ ih =>
    refine .step (fun h => hx ((hs _).mp h)) ?_
    rw [hn _ hx]
    exact ih

end EndsAt

namespace Follows

theorem endsAt_iff (h : Follows next stop x y) : EndsAt next stop x z ↔ EndsAt next stop y z := by
  induction h using Relation.ReflTransGen.head_induction_on with
  | refl => rfl
  | head hstep _ ih =>
    obtain ⟨hx, rfl⟩ := hstep
    rw [← ih]
    exact ⟨fun h => h.of_not_stop hx, fun h => h.step hx⟩

theorem eq_or_next (h : Follows next stop x y) :
    y = x ∨ ¬stop x ∧ Follows next stop (next x) y := by
  rcases Relation.ReflTransGen.cases_head h with rfl | ⟨w, ⟨hx, rfl⟩, hw⟩
  · exact .inl rfl
  · exact .inr ⟨hx, hw⟩

end Follows

theorem EndsAt.no_cycle (h : EndsAt next stop x y) (hz : Follows next stop x z)
    (hstop : ¬stop z) (hcycle : Follows next stop (next z) z) : False := by
  induction h with
  | here hx =>
    rcases hz.eq_or_next with rfl | ⟨hx', -⟩
    · exact hstop hx
    · exact hx' hx
  | step hx _ ih =>
    rcases hz.eq_or_next with rfl | ⟨-, hz⟩
    · exact ih hcycle
    · exact ih hz

end MySQL.Lib
