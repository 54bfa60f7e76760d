import Fluxa.LoopEval
import Fluxa.LoopVm

/-! The two tiers on a loop. The tree walker and the VM leave the same values in the slots, unless the loop comes to a
point where they part. -/

namespace Fluxa

open Machine

/-- Between two statements, with room for another error. -/
structure Runtime.Idle (rt : Runtime) : Prop where
  ok : rt.hadError = false
  noReturn : rt.ret.active = false
  room : rt.dangerErrors < errStackCap

/-- The loop, interpreted, ends in `rt'`, and no loop in it is cut short by the limit of interpreted loops:
without the limit it ends there as well. -/
structure EndsWithin (env : Env) (cond : Expr) (body : List Stmt) (rt rt' : Runtime) : Prop where
  limited : ∃ v, (interp { env with compileLoops := false }).Iterates .loop
    (LoopState.while cond body env.whileLimit) rt v rt'
  unlimited : ∃ v, (interp { env with compileLoops := false, whileLimit := none }).Iterates .loop
    (LoopState.while cond body none) rt v rt'

section Compilation

open Loop

/-- Both tiers have the same meaning for the operators. -/
def Env.SameOperators (env : Env) : Prop := ∀ op x y v, env.evalOp op x y = .value v → env.vmOp op x y = some v

/-- What a loop that is reached in `rt` depends on: the operators, and what the evaluator has for its names. -/
def Env.loopCtx (env : Env) (rt : Runtime) : Ctx where
  op op x y := match env.evalOp op x y with
    | .value v => .ok v
    | _ => .error .fails
  hidden := rt.slotHidden
  bound := rt.boundElsewhere
  field x := (rt.currentField x).isSome
  project := rt.mode = .project

def Loop.State.ofRuntime (rt : Runtime) : State := ⟨rt.stack, rt.stackSize⟩

variable {env : Env} {rt : Runtime}

theorem Env.evaluates_loopCtx : (env.loopCtx rt).Evaluates env := by
  intro op x y v h
  simp only [loopCtx, h]

theorem Env.SameOperators.executes (h : env.SameOperators) : (env.loopCtx rt).Executes env := by
  intro op x y v hv
  simp only [loopCtx] at hv
  split at hv
  · next w hw =>
    obtain rfl := Except.ok.inj hv
    exact h op x y w hw
  · exact nomatch hv

theorem mirrors_loopCtx (h : rt.Idle) : Mirrors (env.loopCtx rt) rt.dangerErrors (.ofRuntime rt) rt where
  ok := h.ok
  noReturn := h.noReturn
  errors := rfl
  slots _ _ := rfl
  size := rfl
  hidden _ _ := rfl
  bound _ _ _ := rfl
  field _ := rfl
  project := decide_eq_true

section Together

variable {C : Ctx} {cond : Expr} {body : List Stmt}

theorem not_exec_block_none (h : ∀ s ∈ body, ∀ st, ¬Exec C (.stmt s) st none) (st : State) :
    ¬Exec C (.block body) st none := by
  induction body generalizing st with
  | nil => exact nofun
  | cons s rest ih =>
    intro hexec
    cases hexec with
    | cons _ next => exact ih (fun q hq => h q (List.mem_cons_of_mem _ hq)) _ next
    | parts first => exact h s List.mem_cons_self st first

theorem not_exec_while_none (htest : ∀ st, test C st cond ≠ .error .parts)
    (hbody : ∀ st, ¬Exec C (.block body) st none) (st : State) :
    ¬Exec C (.stmt (.whileStmt cond body)) st none := by
  intro hexec
  generalize hp : Proc.stmt (.whileStmt cond body) = p at hexec
  generalize hr : (none : Option State) = r at hexec
  induction hexec with
  | whileParts h =>
    obtain ⟨rfl, rfl⟩ := Stmt.whileStmt.inj (Proc.stmt.inj hp)
    exact htest _ h
  | roundParts _ round =>
    obtain ⟨rfl, rfl⟩ := Stmt.whileStmt.inj (Proc.stmt.inj hp)
    exact hbody _ round
  | whileMore _ _ _ _ ih => exact ih hp hr
  | effectParts h =>
    obtain rfl := Proc.stmt.inj hp
    exact nomatch h
  | effect | nil | ifNone | whileDone => exact nomatch hr
  | cons | parts | ifParts | ifThen | ifElse => exact nomatch hp

end Together

/-- The interpreter of `-dev` mode, with a VM that computes with the operators of the evaluator. -/
def Env.unified : Env where
  __ := Env.plain
  whileLimit := none
  vmOp op x y := match evalBinaryOp op x y with
    | .value v => some v
    | _ => none

theorem Env.unified_sameOperators : Env.unified.SameOperators := by
  intro op x y v h
  simp_all [Env.unified, Env.plain]

/-- The slots of the top-level variables `i`, `x` and `s`. -/
def slotState (s : Value) : Runtime where
  __ := Runtime.start .script []
  stack k := if k = 0 then .int 0 else if k = 1 then .int 0 else if k = 2 then s else .nil
  stackSize := 3

/-- `while i < 2 { x = x + 5  i = i + 1 }` -/
def sumLoop : Expr × List Stmt :=
  (.binary .lt (.identifier "i" ⟨some 0, false⟩) (.intLit 2),
   [.assign "x" (.binary .add (.identifier "x" ⟨some 1, false⟩) (.intLit 5)) ⟨some 1, false⟩,
    .assign "i" (.binary .add (.identifier "i" ⟨some 0, false⟩) (.intLit 1)) ⟨some 0, false⟩])

/-- Nothing but its slot has the name of a variable there, and the evaluator's operators have no strings for values. -/
theorem sumLoop_together (s : Value) (st : State) :
    ¬Exec (Env.unified.loopCtx (slotState s)) (.stmt (.whileStmt sumLoop.1 sumLoop.2)) st none := by
  set C := Env.unified.loopCtx (slotState s)
  have hread (st : State) (x : Ident) (off : ℕ) : st.read C x ⟨some off, false⟩ off ≠ .error .parts := by
    have hhidden : C.hidden x ⟨some off, false⟩ = false := rfl
    have hbound : C.bound x ⟨some off, false⟩ = false := rfl
    rw [State.read, hhidden, hbound]
    split
    · contradiction
    · split <;> simp
  have hop (op : BinOp) (x y : Value) : C.op op x y ≠ .error .parts ∧
      ∀ v, C.op op x y = .ok v → v.truthy = v.vmTruthy := by
    simp only [C, Env.loopCtx]
    split
    · next v hv =>
      refine ⟨by simp, fun w hw => ?_⟩
      obtain rfl := Except.ok.inj hw
      rcases evalBinaryOp_scalar hv with h | h | h <;> cases v <;> simp_all [Value.type, Value.truthy, Value.vmTruthy]
    · simp
  have heval (st : State) (op : BinOp) (x : Ident) (off : ℕ) (i : Int64) :
      eval C st (.binary op (.identifier x ⟨some off, false⟩) (.intLit i)) ≠ .error .parts := by
    intro h
    obtain h | ⟨v, -, h⟩ := Except.bind_eq_error.mp h
    · exact hread st x off h
    · exact (hop op v (.int i)).1 h
  refine not_exec_while_none (fun st h => ?_) (not_exec_block_none ?_) st
  · obtain h | ⟨v, hv, h⟩ := Except.bind_eq_error.mp h
    · exact heval st _ _ _ _ h
    · obtain ⟨x, -, hv⟩ := Except.bind_eq_ok.mp hv
      rw [if_pos ((hop _ _ _).2 v hv)] at h
      cases h
  · have hassign (x : Ident) (off : ℕ) (i : Int64) (st : State) : ¬Exec C (.stmt (.assign x
        (.binary .add (.identifier x ⟨some off, false⟩) (.intLit i)) ⟨some off, false⟩)) st none := by
      intro h
      cases h with
      | effectParts h =>
      obtain h | ⟨v, -, h⟩ := Except.bind_eq_error.mp (Option.some.inj h)
      · exact heval st _ _ _ _ h
      have hfield : C.field x = false := rfl
      rw [State.assign, hfield, if_neg Bool.false_ne_true] at h
      obtain h | ⟨w, -, h⟩ := Except.bind_eq_error.mp h
      · exact hread st x off h
      · split at h <;> cases h
    simp only [sumLoop, List.mem_cons, List.not_mem_nil, or_false]
    rintro q (rfl | rfl) st
    · exact hassign "x" 1 5 st
    · exact hassign "i" 0 1 st

/-- A loop that ends with the given fuel ends within its limit if it has none. -/
theorem endsWithin_iter {env : Env} (hlimit : env.whileLimit = none) {cond : Expr} {body : List Stmt}
    {rt : Runtime} {n : ℕ}
    (h : ((interp { env with compileLoops := false }).iter n .loop (LoopState.while cond body none) rt).1.isSome) :
    EndsWithin env cond body rt
      ((interp { env with compileLoops := false }).iter n .loop (LoopState.while cond body none) rt).2 := by
  obtain ⟨v, hv⟩ := Option.isSome_iff_exists.mp h
  obtain ⟨stdLib, lib, ffi, evalOp, vmOp, limit, tailCalls, compileLoops⟩ := env
  obtain rfl : limit = none := hlimit
  exact ⟨⟨v, n, Prod.ext hv rfl⟩, ⟨v, n, Prod.ext hv rfl⟩⟩

/-- `sumLoop` as the evaluator runs it. -/
def sumLoopEnd : Runtime :=
  ((interp { Env.unified with compileLoops := false }).iter 20 .loop
    (LoopState.while sumLoop.1 sumLoop.2 none) (slotState (.str "a"))).2

/-- `while i < 1 { if s { x = 1 }  i = i + 1 }` -/
def stringLoop : Expr × List Stmt :=
  (.binary .lt (.identifier "i" ⟨some 0, false⟩) (.intLit 1),
   [.ifStmt (.identifier "s" ⟨some 2, false⟩) [.assign "x" (.intLit 1) ⟨some 1, false⟩] none,
    .assign "i" (.binary .add (.identifier "i" ⟨some 0, false⟩) (.intLit 1)) ⟨some 0, false⟩])

end Compilation

end Fluxa
