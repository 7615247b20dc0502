import MySQL.Lib.Chase
import MySQL.Sql.Sp.Optimize

/-!
# Where the shortcut of a jump leads

`opt_shortcut_jump` follows unconditional jumps. It gives up at the instruction `start` it was
called for and at a jump to itself, and at nothing else: on a cycle of two or more jumps that
`start` is not on, the calls go round for ever.
-/

namespace MySQL.Sql.Sp

open Lib

variable {α : Type*} {h : Head α} {start i d e fuel : ℕ}

namespace Head

/-- `opt_shortcut_jump` looks no further than this. -/
def ShortcutStop (h : Head α) (start d : ℕ) : Prop :=
  d < h.elements → (h.instr d).kind = .jump → d = start ∨ (h.instr d).dest = d

/-- Following the unconditional jumps from `d` comes to an end, at `e`. -/
def ChainEnd (h : Head α) (start d e : ℕ) : Prop :=
  EndsAt (fun k => (h.instr k).dest) (h.ShortcutStop start) d e

def Indexed (h : Head α) : Prop :=
  ∀ k, (h.instr k).ip = k

theorem optShortcutJump_of_ne_jump (hidx : h.Indexed) (hi : (h.instr i).kind ≠ .jump) :
    h.optShortcutJump start (fuel + 1) i = some i := by
  rw [optShortcutJump.eq_def]
  cases hk : (h.instr i).kind with
  | jump => exact absurd hk hi
  | _ => simp [hk, hidx i]

theorem optShortcutJump_of_jump (hi : (h.instr i).kind = .jump) :
    h.optShortcutJump start (fuel + 1) i = h.shortcutLoop start fuel i (h.instr i).dest := by
  rw [optShortcutJump.eq_def]
  simp only [hi]

theorem shortcutStop_of_ne_jump (hd : (h.instr d).kind ≠ .jump) : h.ShortcutStop start d :=
  fun _ hk => absurd hk hd

/-! ### What a shortcut that returns has found -/

section

variable (hidx : h.Indexed)

include hidx

theorem shortcut_sound (fuel : ℕ) :
    (∀ i e, (h.instr i).kind = .jump → h.optShortcutJump start fuel i = some e →
      h.ChainEnd start (h.instr i).dest e) ∧
    ∀ this d e, (this = d → h.ShortcutStop start d) → h.shortcutLoop start fuel this d = some e →
      h.ChainEnd start d e := by
  induction fuel with
  | zero => exact ⟨fun _ _ _ he => (nomatch he), fun _ _ _ _ he => (nomatch he)⟩
  | succ fuel ih =>
    refine ⟨fun i e hi he => ?_, fun this d e hthis he => ?_⟩
    · rw [optShortcutJump_of_jump hi] at he
      refine ih.2 i _ e (fun hself _ _ => .inr ?_) he
      rw [← hself]
      exact hself.symm
    · rw [shortcutLoop.eq_def] at he
      dsimp only at he
      split at he
      next hlt =>
        split at he
        next hstop =>
          cases he
          rcases hstop with hstart | hthis'
          · exact .here fun _ _ => .inl hstart.symm
          · exact .here (hthis hthis')
        next hne =>
          obtain ⟨nd, hnd, he⟩ := Option.bind_eq_some_iff.mp he
          by_cases hd : (h.instr d).kind = .jump
          · have hchain := ih.1 d nd hd hnd
            split at he
            next heq =>
              cases he
              rw [heq] at hchain
              exact .here hchain.stop_end
            next hnd' =>
              have hend := ih.2 this nd e (fun _ => hchain.stop_end) he
              have : e = nd := hend.eq_of_stop hchain.stop_end
              subst this
              refine .step (fun hstop => ?_) hchain
              -- a stop at `d` would be a jump to itself, and the inner call returns `d` then
              rcases hstop hlt hd with hs | hself
              · exact hne (.inl hs.symm)
              · rw [hself] at hchain
                exact hnd' (hchain.eq_of_stop hstop)
          · cases fuel with
            | zero => exact nomatch hnd
            | succ fuel =>
              rw [optShortcutJump_of_ne_jump hidx hd] at hnd
              cases hnd
              rw [if_pos rfl] at he
              cases he
              exact .here (shortcutStop_of_ne_jump hd)
      next hge =>
        cases he
        exact .here fun hlt => absurd hlt hge

/-! ### The call for another instruction's destination -/

/-- The call that the conditional classes make: for a destination `d` of the instruction `start`,
which is not an unconditional jump. -/
theorem chainEnd_of_optShortcutJump (hd : d < h.elements)
    (hstart : (h.instr start).kind ≠ .jump) (he : h.optShortcutJump start fuel d = some e) :
    h.ChainEnd start d e := by
  cases fuel with
  | zero => exact nomatch he
  | succ fuel =>
    by_cases hk : (h.instr d).kind = .jump
    · have hchain := (shortcut_sound hidx (fuel + 1)).1 d e hk he
      by_cases hstop : h.ShortcutStop start d
      · have hself : (h.instr d).dest = d :=
          (hstop hd hk).resolve_left fun hs => hstart (hs ▸ hk)
        rwa [hself] at hchain
      · exact .step hstop hchain
    · rw [optShortcutJump_of_ne_jump hidx hk] at he
      cases he
      exact .here (shortcutStop_of_ne_jump hk)

end

end Head

end MySQL.Sql.Sp
