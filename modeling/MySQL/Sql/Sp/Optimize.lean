import Mathlib

/-!
# The stored-program optimizer

A stored program is an array of instructions (`sp_head.cc`). After parsing, `sp_head::optimize`
marks the instructions that can be reached, sending each jump straight to the end of the chain of
jumps it leads to, drops the others, and moves the marked ones down to close the gaps. A jump
forward is entered in the back-patch list `bp` and gets its new destination when that instruction
is moved; a jump backward reads it off the instruction, which has moved already.
-/

namespace MySQL.Sql.Sp

open Function

inductive HandlerType
  | exit
  | undo
  | cont
  deriving DecidableEq, Repr

/-- The instruction classes. `stmt` stands for every class that keeps the `opt_mark` and
`get_cont_dest` of `sp_instr`; `α` is what such an instruction runs or evaluates. -/
inductive Kind (α : Type*)
  | stmt (a : α)
  | jump
  | jumpIfNot (a : α)
  | setCaseExpr (a : α)
  | freturn (a : α)
  | error (a : α)
  | hpushJump (a : α) (type : HandlerType) (conds optHpop : ℕ)
  | hpop (count : ℕ)
  | hreturn
  deriving DecidableEq, Repr

variable {α : Type*}

/-- An instruction with `m_dest` and `m_cont_dest`, which are 0 in the classes that have none. -/
structure Op (α : Type*) where
  kind : Kind α
  dest : ℕ
  contDest : ℕ
  deriving DecidableEq, Repr

instance : Inhabited (Op α) := ⟨⟨.hpop 0, 0, 0⟩⟩

/-- The instruction object with what the optimizer keeps in it. Objects go by their index in the
array that is optimized. -/
structure Node (α : Type*) extends Op α where
  ip : ℕ
  marked : Bool
  optdest : Option ℕ
  contOptdest : Option ℕ

structure Head (α : Type*) where
  elements : ℕ
  instr : ℕ → Node α

def load (code : List (Op α)) : Head α where
  elements := code.length
  instr k := ⟨code.getD k default, k, false, none, none⟩

namespace Head

def getInstr (h : Head α) (i : ℕ) : Option ℕ :=
  if i < h.elements then some i else none

def modify (h : Head α) (i : ℕ) (f : Node α → Node α) : Head α :=
  { h with instr := update h.instr i (f (h.instr i)) }

def mark (h : Head α) (i : ℕ) : Head α :=
  h.modify i fun x => { x with marked := true }

/-! ### Marking -/

mutual

/-- `sp_instr::opt_shortcut_jump`; `none` when `fuel` calls and turns were not enough. Only an
unconditional jump looks further. -/
def optShortcutJump (h : Head α) (start : ℕ) : ℕ → ℕ → Option ℕ
  | 0, _ => none
  | fuel + 1, i =>
    match (h.instr i).kind with
    | .jump => h.shortcutLoop start fuel i (h.instr i).dest
    | _ => some (h.instr i).ip

def shortcutLoop (h : Head α) (start : ℕ) : ℕ → ℕ → ℕ → Option ℕ
  | 0, _, _ => none
  | fuel + 1, this, dest =>
    if dest < h.elements then
      if start = dest ∨ this = dest then some dest
      else
        (h.optShortcutJump start fuel dest).bind fun ndest =>
          if ndest = dest then some dest else h.shortcutLoop start fuel this ndest
    else some dest

end

def addMarkLead (h : Head α) (leads : List ℕ) (ip : ℕ) : List ℕ :=
  if ip < h.elements ∧ (h.instr ip).marked = false then ip :: leads else leads

/-- What `opt_mark` of the conditional classes does to `m_dest`. -/
def shortcutDest (h : Head α) (fuel i : ℕ) : Option (Head α) :=
  if (h.instr i).dest < h.elements then
    (h.optShortcutJump i fuel (h.instr i).dest).map fun d =>
      h.modify i fun x => { x with dest := d, optdest := h.getInstr d }
  else some h

/-- What `opt_mark` of the conditional classes does to `m_cont_dest`. -/
def shortcutCont (h : Head α) (fuel i : ℕ) : Option (Head α) :=
  if (h.instr i).contDest < h.elements then
    (h.optShortcutJump i fuel (h.instr i).contDest).map fun d =>
      h.modify i fun x => { x with contDest := d, contOptdest := h.getInstr d }
  else some h

end Head

/-- The two loops of `sp_head::opt_mark`: the leads still to be followed and the instruction the
inner loop looks at. -/
structure Marking (α : Type*) where
  head : Head α
  leads : List ℕ
  cur : Option ℕ

namespace Marking

def start (code : List (Op α)) : Marking α :=
  ⟨load code, [0], none⟩

/-- `opt_mark` of the instruction classes; a next instruction `none` is `UINT_MAX`. -/
def optMark (h : Head α) (leads : List ℕ) (fuel i : ℕ) : Option (Marking α) :=
  match (h.instr i).kind with
  | .stmt _ | .hpop _ => some ⟨h.mark i, leads, some (i + 1)⟩
  | .freturn _ | .error _ => some ⟨h.mark i, leads, none⟩
  | .hreturn =>
    some ⟨h.mark i, leads, if (h.instr i).dest = 0 then none else some (h.instr i).dest⟩
  | .jump =>
    (h.optShortcutJump i fuel i).map fun d =>
      ⟨h.modify i fun x =>
          { x with dest := d, marked := x.marked || d != i + 1, optdest := h.getInstr d },
        leads, some d⟩
  | .jumpIfNot _ =>
    ((h.mark i).shortcutDest fuel i).bind fun h₁ =>
      (h₁.shortcutCont fuel i).map fun h₂ =>
        ⟨h₂, h₂.addMarkLead (h₁.addMarkLead leads (h₁.instr i).dest) (h₂.instr i).contDest,
          some (i + 1)⟩
  | .setCaseExpr _ =>
    ((h.mark i).shortcutCont fuel i).map fun h₁ =>
      ⟨h₁, h₁.addMarkLead leads (h₁.instr i).contDest, some (i + 1)⟩
  | .hpushJump _ type _ optHpop =>
    ((h.mark i).shortcutDest fuel i).map fun h₁ =>
      let dest := (h₁.instr i).dest
      let scope := if type = .cont then List.range' (dest + 1) (optHpop - dest) else []
      ⟨h₁, scope.foldl h₁.addMarkLead (h₁.addMarkLead leads dest), some (i + 1)⟩

/-- The instruction whose `opt_mark` is called next, if the inner loop goes on. -/
def visiting (s : Marking α) : Option ℕ :=
  s.cur.filter fun i => decide (i < s.head.elements) && !(s.head.instr i).marked

def advance (fuel : ℕ) (s : Marking α) : Option (Marking α) :=
  match s.visiting with
  | some i => optMark s.head s.leads fuel i
  | none => some { s with leads := s.leads.tail, cur := s.leads.head? }

def finished (s : Marking α) : Bool :=
  s.visiting.isNone && s.leads.isEmpty

def loop : ℕ → Marking α → Option (Head α)
  | 0, _ => none
  | fuel + 1, s => if s.finished then some s.head else (s.advance fuel).bind (loop fuel)

end Marking

/-- `sp_head::opt_mark`, which has no result when `fuel` turns were not enough. -/
def optMark (fuel : ℕ) (code : List (Op α)) : Option (Head α) :=
  (Marking.start code).loop fuel

/-! ### Moving -/

/-- `set_destination`. -/
def Node.setDestination (x : Node α) (old new : ℕ) : Node α :=
  match x.kind with
  | .jump | .hpushJump .. | .hreturn => { x with dest := if x.dest = old then new else x.dest }
  | .jumpIfNot _ =>
    { x with
      dest := if x.dest = old then new else x.dest
      contDest := if x.contDest = old then new else x.contDest }
  | .setCaseExpr _ => { x with contDest := if x.contDest = old then new else x.contDest }
  | _ => x

/-- The loop of `sp_head::optimize`: the objects, the back-patch list and the array so far. -/
structure Moving (α : Type*) where
  instr : ℕ → Node α
  bp : List ℕ
  out : List ℕ

namespace Moving

variable (m : Moving α) (i dst : ℕ)

/-- `sp_instr_jump::opt_move`. -/
def jumpMove : Moving α :=
  let x := m.instr i
  if x.ip < x.dest then
    { m with instr := update m.instr i { x with ip := dst }, bp := m.bp ++ [i] }
  else
    match x.optdest with
    | some d =>
      { m with instr := update m.instr i { x with dest := (m.instr d).ip, ip := dst } }
    | none => { m with instr := update m.instr i { x with ip := dst } }

/-- What `sp_instr_jump_if_not::opt_move` does before it calls `sp_instr_jump::opt_move`. -/
def contMove (i : ℕ) : Moving α :=
  let x := m.instr i
  if x.ip < x.contDest then
    if x.dest < x.ip then { m with bp := m.bp ++ [i] } else m
  else
    match x.contOptdest with
    | some d => { m with instr := update m.instr i { x with contDest := (m.instr d).ip } }
    | none => m

/-- `sp_instr_set_case_expr::opt_move`. -/
def caseMove : Moving α :=
  let x := m.instr i
  if x.ip < x.contDest then
    { m with instr := update m.instr i { x with ip := dst }, bp := m.bp ++ [i] }
  else
    match x.contOptdest with
    | some d =>
      { m with
        instr := update m.instr i { x with contDest := (m.instr d).ip, ip := dst } }
    | none => { m with instr := update m.instr i { x with ip := dst } }

def optMove : Moving α :=
  match (m.instr i).kind with
  | .jump | .hpushJump .. | .hreturn => m.jumpMove i dst
  | .jumpIfNot _ => (m.contMove i).jumpMove i dst
  | .setCaseExpr _ => m.caseMove i dst
  | _ => { m with instr := update m.instr i { m.instr i with ip := dst } }

/-- `set_destination(src, dst)` over the back-patch list. -/
def patch (src dst : ℕ) : Moving α :=
  { m with
    instr := m.bp.foldl
      (fun instr k => update instr k ((instr k).setDestination src dst)) m.instr }

/-- One turn of the loop, with the instruction at `src`. -/
def step (src : ℕ) : Moving α :=
  if (m.instr src).marked then
    let dst := m.out.length
    let m := if src = dst then m else m.patch src dst
    { m.optMove src dst with out := m.out ++ [src] }
  else m

end Moving

/-- The loop of `sp_head::optimize` over a marked program. -/
def Head.move (h : Head α) : Moving α :=
  (List.range h.elements).foldl Moving.step ⟨h.instr, [], []⟩

def Head.compacted (h : Head α) : List (Op α) :=
  h.move.out.map fun i => (h.move.instr i).toOp

/-- `sp_head::optimize`. -/
def optimize (fuel : ℕ) (code : List (Op α)) : Option (List (Op α)) :=
  (optMark fuel code).map Head.compacted

end MySQL.Sql.Sp
