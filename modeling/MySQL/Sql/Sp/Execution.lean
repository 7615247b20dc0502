import MySQL.Lib.Chase
import MySQL.Sql.Sp.Optimize

/-!
# Running a stored program

`sp_head::execute` runs one instruction after the other until the instruction pointer is outside
the array or an instruction fails. What an instruction meets when it is run is an `Outcome`: it
succeeds, with the value of its condition; it fails; or it raises a condition for which a handler
is active. A CONTINUE handler returns to the continuation of the instruction (`get_cont_dest`),
which is kept on a stack. Unconditional jumps are not seen.
-/

namespace MySQL.Sql.Sp

open Lib

variable {α : Type*} {code : List (Op α)} {k : ℕ}

inductive Outcome
  | ok (b : Bool)
  | fail
  | caught (i : ℕ)
  deriving DecidableEq, Repr

/-- The instruction pointer, the handlers that are active, innermost first, with the index of
their first instruction (`m_handler`), and the continuations to return to (`m_hstack`). -/
structure Machine where
  ip : ℕ
  handlers : List (ℕ × HandlerType)
  hstack : List ℕ
  deriving DecidableEq, Repr

inductive Next
  | goto (m : Machine)
  | returned
  | failed

namespace Machine

def start : Machine :=
  ⟨0, [], []⟩

/-- `sp_rcontext::activate_handler`, for an instruction that continues at `contDest`. -/
def react (m : Machine) (contDest : ℕ) (o : Outcome) (done : Bool → Next) : Next :=
  match o with
  | .ok b => done b
  | .fail => .failed
  | .caught i =>
    match m.handlers[i]? with
    | none => .failed
    | some (handler, type) =>
      .goto { m with
        ip := handler
        hstack := if type = .cont then contDest :: m.hstack else m.hstack }

end Machine

/-- `execute` of the instruction classes, and the handler it leads to. -/
def Op.execute (op : Op α) (m : Machine) (o : Outcome) : Next :=
  match op.kind with
  | .stmt _ => m.react (m.ip + 1) o fun _ => .goto { m with ip := m.ip + 1 }
  | .jump => .goto { m with ip := op.dest }
  | .jumpIfNot _ =>
    m.react op.contDest o fun b => .goto { m with ip := if b then m.ip + 1 else op.dest }
  | .setCaseExpr _ => m.react op.contDest o fun _ => .goto { m with ip := m.ip + 1 }
  | .freturn _ => m.react (m.ip + 1) o fun _ => .returned
  | .error _ => m.react (m.ip + 1) o fun _ => .failed
  | .hpushJump _ type conds _ =>
    .goto { m with
      ip := op.dest
      handlers := List.replicate conds (m.ip + 1, type) ++ m.handlers }
  | .hpop count => .goto { m with ip := m.ip + 1, handlers := m.handlers.drop count }
  | .hreturn =>
    if op.dest ≠ 0 then .goto { m with ip := op.dest }
    else
      match m.hstack with
      | [] => .failed
      | a :: hstack => .goto { m with ip := a, hstack := hstack }

/-! ### Unconditional jumps -/

/-- There is an unconditional jump at `k`. -/
def Silent (code : List (Op α)) (k : ℕ) : Prop :=
  ∃ op, code[k]? = some op ∧ op.kind = .jump

def Leads (code : List (Op α)) : ℕ → ℕ → Prop :=
  Follows (fun k => (code.getD k default).dest) fun k => ¬Silent code k

/-- Unconditional jumps lead from `a` to `t`, where something is run or the program ends. -/
def Settles (code : List (Op α)) : ℕ → ℕ → Prop :=
  EndsAt (fun k => (code.getD k default).dest) fun k => ¬Silent code k

theorem silent_iff : Silent code k ↔ k < code.length ∧ (code.getD k default).kind = .jump := by
  constructor
  · rintro ⟨op, hop, hk⟩
    obtain ⟨hlt, -⟩ := List.getElem?_eq_some_iff.mp hop
    exact ⟨hlt, by rw [List.getD_eq_getElem?_getD, hop]; exact hk⟩
  · rintro ⟨hlt, hk⟩
    refine ⟨code[k], List.getElem?_eq_getElem hlt, ?_⟩
    rwa [List.getD_eq_getElem?_getD, List.getElem?_eq_getElem hlt] at hk

/-! ### Runs -/

inductive Ending (α : Type*)
  /-- The next instruction waits for its outcome. -/
  | waiting (kind : Kind α)
  /-- Control has left the array. -/
  | finished
  | returned
  | failed
  /-- Unconditional jumps go round for ever. -/
  | diverged

/-- The run of a program on a sequence of outcomes: the instructions it runs, each with its
outcome, and how it ends. -/
inductive Runs (code : List (Op α)) :
    Machine → List Outcome → List (Kind α × Outcome) → Ending α → Prop
  | diverged {m : Machine} {os : List Outcome} (hm : ∀ t, ¬Settles code m.ip t) :
      Runs code m os [] .diverged
  | finished {m : Machine} {os : List Outcome} {t : ℕ} (ht : Settles code m.ip t)
      (hop : code[t]? = none) : Runs code m os [] .finished
  | waiting {m : Machine} {t : ℕ} {op : Op α} (ht : Settles code m.ip t)
      (hop : code[t]? = some op) : Runs code m [] [] (.waiting op.kind)
  | returned {m : Machine} {o : Outcome} {os : List Outcome} {t : ℕ} {op : Op α}
      (ht : Settles code m.ip t) (hop : code[t]? = some op)
      (ho : op.execute { m with ip := t } o = .returned) :
      Runs code m (o :: os) [(op.kind, o)] .returned
  | failed {m : Machine} {o : Outcome} {os : List Outcome} {t : ℕ} {op : Op α}
      (ht : Settles code m.ip t) (hop : code[t]? = some op)
      (ho : op.execute { m with ip := t } o = .failed) :
      Runs code m (o :: os) [(op.kind, o)] .failed
  | goto {m m' : Machine} {o : Outcome} {os : List Outcome} {t : ℕ} {op : Op α}
      {evs : List (Kind α × Outcome)} {e : Ending α} (ht : Settles code m.ip t)
      (hop : code[t]? = some op) (ho : op.execute { m with ip := t } o = .goto m')
      (hrest : Runs code m' os evs e) : Runs code m (o :: os) ((op.kind, o) :: evs) e

variable {m : Machine} {os : List Outcome} {o : Outcome} {evs : List (Kind α × Outcome)}
  {e : Ending α} {op : Op α} {t : ℕ}

theorem runs_iff_of_diverged (hm : ∀ t, ¬Settles code m.ip t) :
    Runs code m os evs e ↔ evs = [] ∧ e = .diverged := by
  constructor
  · intro hrun
    cases hrun with
    | diverged => exact ⟨rfl, rfl⟩
    | finished ht | waiting ht | returned ht | failed ht | goto ht => exact absurd ht (hm _)
  · rintro ⟨rfl, rfl⟩
    exact .diverged hm

theorem runs_iff_of_finished (ht : Settles code m.ip t) (hop : code[t]? = none) :
    Runs code m os evs e ↔ evs = [] ∧ e = .finished := by
  constructor
  · intro hrun
    cases hrun with
    | diverged hm => exact absurd ht (hm t)
    | finished => exact ⟨rfl, rfl⟩
    | waiting ht' hop' | returned ht' hop' | failed ht' hop' | goto ht' hop' =>
      rw [EndsAt.unique ht' ht, hop] at hop'
      exact nomatch hop'
  · rintro ⟨rfl, rfl⟩
    exact .finished ht hop

theorem runs_nil_iff (ht : Settles code m.ip t) (hop : code[t]? = some op) :
    Runs code m [] evs e ↔ evs = [] ∧ e = .waiting op.kind := by
  constructor
  · intro hrun
    cases hrun with
    | diverged hm => exact absurd ht (hm t)
    | finished ht' hop' =>
      rw [EndsAt.unique ht' ht, hop] at hop'
      exact nomatch hop'
    | waiting ht' hop' =>
      rw [EndsAt.unique ht' ht, hop] at hop'
      cases hop'
      exact ⟨rfl, rfl⟩
  · rintro ⟨rfl, rfl⟩
    exact .waiting ht hop

def RunsFrom (code : List (Op α)) (os : List Outcome) (evs : List (Kind α × Outcome))
    (e : Ending α) : Next → Prop
  | .goto m => Runs code m os evs e
  | .returned => evs = [] ∧ e = .returned
  | .failed => evs = [] ∧ e = .failed

theorem runs_cons_iff (ht : Settles code m.ip t) (hop : code[t]? = some op) :
    Runs code m (o :: os) evs e ↔
      ∃ evs', evs = (op.kind, o) :: evs' ∧
        RunsFrom code os evs' e (op.execute { m with ip := t } o) := by
  constructor
  · intro hrun
    cases hrun with
    | diverged hm => exact absurd ht (hm t)
    | finished ht' hop' =>
      rw [EndsAt.unique ht' ht, hop] at hop'
      exact nomatch hop'
    | returned ht' hop' ho | failed ht' hop' ho =>
      obtain rfl := EndsAt.unique ht' ht
      rw [hop] at hop'
      cases hop'
      exact ⟨[], rfl, by rw [ho]; exact ⟨rfl, rfl⟩⟩
    | goto ht' hop' ho hrest =>
      obtain rfl := EndsAt.unique ht' ht
      rw [hop] at hop'
      cases hop'
      exact ⟨_, rfl, by rw [ho]; exact hrest⟩
  · rintro ⟨evs', rfl, hrest⟩
    generalize hnext : op.execute { m with ip := t } o = next at hrest
    cases next with
    | goto m' => exact .goto ht hop hnext hrest
    | returned =>
      obtain ⟨rfl, rfl⟩ := hrest
      exact .returned ht hop hnext
    | failed =>
      obtain ⟨rfl, rfl⟩ := hrest
      exact .failed ht hop hnext

end MySQL.Sql.Sp
