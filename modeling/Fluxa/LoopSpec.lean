import Fluxa.Base.Outcome
import Fluxa.Eval

/-! What a `while` loop means, to both tiers: an abstract semantics over the slots the loop works on, with no code and
no error flag. It says of every step whether the tiers go on together, the evaluator reports an error, or the tiers
part. The tree walker runs every loop as described here (`LoopEval`), and so does the VM up to the point where they
part (`LoopVm`). -/

namespace Fluxa.Loop

/-- Why a loop does not go on: the evaluator reports an error, or the tiers part: they read or write different places,
or take different branches. -/
inductive Fault where
  | fails | parts
  deriving DecidableEq

/-- The frame of the loop. -/
structure State where
  slots : ℕ → Value
  size : ℕ

/-- What is fixed while a loop runs: the meaning of the operators, and what the evaluator has for a name beside its
slot. The slot of a name that is `hidden` is not looked at, a name that is `bound` has another value if its slot is
empty, an assignment to a `field` does not go to the slot, and in a `project` a `prst` declaration goes through the
pool. -/
structure Ctx where
  op : BinOp → Value → Value → Except Fault Value
  hidden : Ident → Ref → Bool
  bound : Ident → Ref → Bool
  field : Ident → Bool
  project : Bool

namespace State

variable (C : Ctx) (st : State)

def read (x : Ident) (ref : Ref) (off : ℕ) : Except Fault Value :=
  if C.hidden x ref then .error .parts
  else if off < st.size ∧ !(st.slots off).isNil then .ok (st.slots off)
  else .error (if C.bound x ref then .parts else .fails)

def write (off : ℕ) (v : Value) : State := ⟨Function.update st.slots off v, max st.size (off + 1)⟩

/-- A declared type is checked by the evaluator alone. -/
def declare (t : TypeName) (off : ℕ) (v : Value) : Except Fault State :=
  if Runtime.typeOk t v then .ok (st.write off v) else .error .fails

/-- So is the type of a variable that is assigned to. -/
def assign (x : Ident) (ref : Ref) (off : ℕ) (v : Value) : Except Fault State :=
  if C.field x then .error .parts
  else do
    let current ← st.read C x ref off
    if current.type = v.type then .ok (st.write off v) else .error .fails

variable {C st}

theorem declare_eq_ok {t : TypeName} {off : ℕ} {v : Value} {st' : State} (h : st.declare t off v = .ok st') :
    st' = st.write off v := by
  unfold declare at h
  split at h
  · exact (Except.ok.inj h).symm
  · exact nomatch h

theorem assign_eq_ok {x : Ident} {ref : Ref} {off : ℕ} {v : Value} {st' : State}
    (h : st.assign C x ref off v = .ok st') : st' = st.write off v := by
  unfold assign at h
  split at h
  · exact nomatch h
  · obtain ⟨current, -, h⟩ := Except.bind_eq_ok.mp h
    split at h
    · exact (Except.ok.inj h).symm
    · exact nomatch h

end State

section Semantics

variable (C : Ctx) (st : State)

/-- Expressions change nothing. -/
def eval : Expr → Except Fault Value
  | .intLit i => .ok (.int i)
  | .floatLit d => .ok (.float d)
  | .boolLit b => .ok (.bool b)
  | .stringLit s => .ok (.str s)
  | .identifier x ⟨some off, warm⟩ => st.read C x ⟨some off, warm⟩ off
  | .binary op l r => do
      let x ← eval l
      let y ← eval r
      C.op op x y
  | .logic op l r => do
      let x ← eval l
      if op.shortCircuits x.truthyLogic then .ok (.bool x.truthyLogic)
      else do
        let y ← eval r
        .ok (.bool y.truthyLogic)
  | .not e => do
      let x ← eval e
      .ok (.bool !x.truthyNot)
  | _ => .error .parts

/-- The condition of an `if` or a `while`. The tiers part at a string that is not empty, which only the evaluator takes
for true. -/
def test (cond : Expr) : Except Fault Bool := do
  let v ← eval C st cond
  if v.truthy = v.vmTruthy then .ok v.truthy else .error .parts

def effect : Stmt → Option (Except Fault State)
  | .varDecl t _ init persistent ⟨some off, _⟩ =>
      some (if persistent && C.project then .error .parts
        else do
          let v ← eval C st init
          st.declare t off v)
  | .assign x value ⟨some off, warm⟩ => some do
      let v ← eval C st value
      st.assign C x ⟨some off, warm⟩ off v
  | _ => none

end Semantics

/-- The runs in which the evaluator reports no error: they end, or come to a point where the tiers part (`none`). -/
inductive Exec (C : Ctx) : Proc → State → Option State → Prop
  | effect {s : Stmt} {st st' : State} (h : effect C st s = some (.ok st')) : Exec C (.stmt s) st (some st')
  | effectParts {s : Stmt} {st : State} (h : Loop.effect C st s = some (.error .parts)) : Exec C (.stmt s) st none
  | nil {st : State} : Exec C (.block []) st (some st)
  | cons {s : Stmt} {rest : List Stmt} {st st' : State} {r : Option State}
      (first : Exec C (.stmt s) st (some st')) (next : Exec C (.block rest) st' r) : Exec C (.block (s :: rest)) st r
  | parts {s : Stmt} {rest : List Stmt} {st : State} (first : Exec C (.stmt s) st none) :
      Exec C (.block (s :: rest)) st none
  | ifParts {cond : Expr} {thn : List Stmt} {els : Option (List Stmt)} {st : State}
      (h : test C st cond = .error .parts) : Exec C (.stmt (.ifStmt cond thn els)) st none
  | ifThen {cond : Expr} {thn : List Stmt} {els : Option (List Stmt)} {st : State} {r : Option State}
      (h : test C st cond = .ok true) (body : Exec C (.block thn) st r) : Exec C (.stmt (.ifStmt cond thn els)) st r
  | ifElse {cond : Expr} {thn els : List Stmt} {st : State} {r : Option State} (h : test C st cond = .ok false)
      (body : Exec C (.block els) st r) : Exec C (.stmt (.ifStmt cond thn (some els))) st r
  | ifNone {cond : Expr} {thn : List Stmt} {st : State} (h : test C st cond = .ok false) :
      Exec C (.stmt (.ifStmt cond thn none)) st (some st)
  | whileParts {cond : Expr} {body : List Stmt} {st : State} (h : test C st cond = .error .parts) :
      Exec C (.stmt (.whileStmt cond body)) st none
  | whileDone {cond : Expr} {body : List Stmt} {st : State} (h : test C st cond = .ok false) :
      Exec C (.stmt (.whileStmt cond body)) st (some st)
  | roundParts {cond : Expr} {body : List Stmt} {st : State} (h : test C st cond = .ok true)
      (round : Exec C (.block body) st none) : Exec C (.stmt (.whileStmt cond body)) st none
  | whileMore {cond : Expr} {body : List Stmt} {st st' : State} {r : Option State} (h : test C st cond = .ok true)
      (round : Exec C (.block body) st (some st')) (again : Exec C (.stmt (.whileStmt cond body)) st' r) :
      Exec C (.stmt (.whileStmt cond body)) st r

section Fragment

/-- A resolved name whose slot lies below the temporaries. -/
def LowSlot (ref : Ref) : Prop := ∃ off < firstTemp, ref.off = some off

/-- The expressions a loop may have here. -/
def InExpr : Expr → Prop
  | .intLit _ | .floatLit _ | .boolLit _ | .stringLit _ => True
  | .identifier x ref => x ≠ "nil" ∧ x ≠ "err" ∧ LowSlot ref
  | .binary _ l r | .logic _ l r => InExpr l ∧ InExpr r
  | .not e => InExpr e
  | _ => False

mutual

def InStmt : Stmt → Prop
  | .varDecl _ _ init _ ref => LowSlot ref ∧ InExpr init
  | .assign _ value ref => LowSlot ref ∧ InExpr value
  | .ifStmt cond thn none => InExpr cond ∧ InStmts thn
  | .ifStmt cond thn (some els) => InExpr cond ∧ InStmts thn ∧ InStmts els
  | .whileStmt cond body => InExpr cond ∧ InStmts body
  | _ => False

def InStmts : List Stmt → Prop
  | [] => True
  | s :: rest => InStmt s ∧ InStmts rest

end

/-- The fragment, for statements and blocks. -/
def InProc : Proc → Prop
  | .stmt s => InStmt s
  | .block body => InStmts body
  | .expr _ => False

theorem inStmt_if {cond : Expr} {thn : List Stmt} {els : Option (List Stmt)} :
    InStmt (.ifStmt cond thn els) ↔ InExpr cond ∧ InStmts thn ∧ ∀ b ∈ els, InStmts b := by
  cases els <;> simp [InStmt]

theorem inStmts_iff {body : List Stmt} : InStmts body ↔ ∀ s ∈ body, InStmt s := by
  induction body with
  | nil => simp [InStmts]
  | cons s rest ih => simp [InStmts, ih]

end Fragment

end Fluxa.Loop
