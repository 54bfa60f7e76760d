import Fluxa.Agreement
import Fluxa.BigStep

/-! The inliner (`method_try_inline`) against `call_function`. The inliner writes fields as it goes and
may still give up afterwards, so that the fallback runs the body from the start again; and it has an
operator table of its own. -/

namespace Fluxa

open Machine Fluxa.Runtime Value
open Prog (read modify bracket)

theorem call_not_inner (inst : Option ℕ) (h : (Bracket.call inst).inner = true) : false = true := h

/-- `call_function` on arguments that are evaluated. -/
def callWith (fn : FuncDecl) (inst : Option ℕ) (args : List Value) : RtProg false Value := do
  let rt ← read
  if fluxaMaxDepth ≤ rt.callDepth then fail .stackOverflow
  else bracket (.call inst) (call_not_inner inst) ⟨fn, args, rt.stackSize, false⟩

/-- What the inliner has to guarantee for a method of instance `i`: a result it returns is that of the
call, with the same fields behind it, and it gives up with nothing done. -/
structure InlineSound (env : Env) (fn : FuncDecl) (i : ℕ) (args : List Value) (rt : Runtime) : Prop where
  taken : ∀ v rt', (interp env).Runs (methodTryInline fn args) rt (some v) rt' →
    ∃ rt'', (interp env).Runs (callWith fn (some i) args) rt v rt'' ∧ rt''.instances = rt'.instances
  declined : ∀ rt', (interp env).Runs (methodTryInline fn args) rt none rt' → rt'.instances = rt.instances

section Condition

/-- What the inliner evaluates as the evaluator does: literals, arguments that are there and do not own an array, fields
that are there, and operators where the two tables have the same entry. -/
def ExprSafe (rt : Runtime) (args : List Value) : Expr → Prop
  | .intLit _ | .floatLit _ | .boolLit _ | .stringLit _ => True
  | .identifier x ref => x ≠ "nil" ∧ x ≠ "err" ∧ ref.warm = true ∧
      ∃ off v, ref.off = some off ∧ args[off]? = some v ∧ v ≠ .nil ∧ v.arrRef = v
  | .memberAccess owner field => ∃ i v, rt.blockInstFind owner = some i ∧ rt.instanceField i field = some v
  | .binary op l r => ExprSafe rt args l ∧ ExprSafe rt args r ∧
      ∀ x y, evalSimpleExpr rt args l = some x → evalSimpleExpr rt args r = some y → SameEntry op x y
  | _ => False

/-- The statements up to the first `return` only assign fields of registered instances, and evaluate
what is safe on the fields they find. An array that is returned would be copied by the call. -/
def StmtsSafe (args : List Value) : Runtime → List Stmt → Prop
  | _, [] => True
  | rt, .memberAssign owner field value :: rest => ∃ i, rt.blockInstFind owner = some i ∧
      ExprSafe rt args value ∧
      ∀ v, evalSimpleExpr rt args value = some v → StmtsSafe args (rt.setInstanceField i field v) rest
  | _, .returnStmt none :: _ => True
  | rt, .returnStmt (some value) :: _ =>
      ExprSafe rt args value ∧ ∀ v, evalSimpleExpr rt args value = some v → v.type ≠ .arr
  | _, _ => False

/-- The inliner gives up at the first statement: it assigns a variable, or a field of something that is no
instance. -/
def GivesUp (rt : Runtime) : List Stmt → Prop
  | .assign _ _ _ :: _ | .varDecl _ _ _ _ _ :: _ => True
  | .memberAssign owner _ _ :: _ => rt.resolveInstance owner = none
  | _ => False

/-- The inliner gives up before anything is done, or it is called without an error pending and below the
depth limit on a body it is safe for. -/
def InlineSafe (fn : FuncDecl) (args : List Value) (rt : Runtime) : Prop :=
  GivesUp rt fn.body ∨ (rt.hadError = false ∧ rt.callDepth < fluxaMaxDepth ∧ StmtsSafe args rt fn.body)

end Condition

section Expressions

/-- A frame of the call: the arguments are in its slots, and the instances are those of the caller. -/
structure CallFrame (args : List Value) (rt s : Runtime) : Prop where
  ok : s.hadError = false
  instances : s.instances = rt.instances
  names : s.instanceNames = rt.instanceNames
  slots : ∀ off v, args[off]? = some v → v ≠ .nil → v.arrRef = v → s.slotValue off = some v
  noTail : s.ret.tailCall = none
  noReturn : s.ret.active = false

variable {env : Env} {args : List Value} {rt s : Runtime}

theorem CallFrame.blockInstFind (hs : CallFrame args rt s) {owner : Ident} {i : ℕ}
    (h : rt.blockInstFind owner = some i) : s.resolveInstance owner = some i := by
  have hs : s.blockInstFind owner = some i := by rw [Runtime.blockInstFind, hs.names]; exact h
  simp only [resolveInstance, hs]

theorem CallFrame.instanceField (hs : CallFrame args rt s) (i : ℕ) (field : Ident) :
    s.instanceField i field = rt.instanceField i field := by
  rw [Runtime.instanceField, Runtime.instance?, hs.instances]
  rfl

theorem ExprSafe.evaluates (henv : env.evalOp = evalBinaryOp) (hs : CallFrame args rt s) :
    ∀ {e : Expr}, ExprSafe rt args e → ∃ v, evalSimpleExpr rt args e = some v ∧
      (interp env).Calls (.expr e) s v s := by
  intro e
  induction e with
  | intLit i => exact fun _ => ⟨.int i, rfl, (calls_ok hs.ok).mpr (by simp [step, evalExpr])⟩
  | floatLit d => exact fun _ => ⟨.float d, rfl, (calls_ok hs.ok).mpr (by simp [step, evalExpr])⟩
  | boolLit b => exact fun _ => ⟨.bool b, rfl, (calls_ok hs.ok).mpr (by simp [step, evalExpr])⟩
  | stringLit c => exact fun _ => ⟨.str c, rfl, (calls_ok hs.ok).mpr (by simp [step, evalExpr])⟩
  | identifier x ref =>
    rintro ⟨hnil, herr, hwarm, off, v, hoff, hv, hne, href⟩
    obtain ⟨_, _⟩ := ref
    subst hoff hwarm
    refine ⟨v, by simp [evalSimpleExpr, hv], (calls_ok hs.ok).mpr ?_⟩
    refine (runs_evalIdentifier hnil herr).mpr (runs_getVar.mpr ?_)
    simp [lookup, hs.slots off v hv hne href]
  | memberAccess owner field =>
    rintro ⟨i, v, hi, hv⟩
    refine ⟨v, by simp [evalSimpleExpr, resolveInstance, hi, hv], (calls_ok hs.ok).mpr ?_⟩
    refine runs_evalMemberAccess.mpr ?_
    simp [hs.blockInstFind hi, hs.instanceField, hv]
  | binary op l r ihl ihr =>
    rintro ⟨hl, hr, hop⟩
    obtain ⟨x, hx, hcl⟩ := ihl hl
    obtain ⟨y, hy, hcr⟩ := ihr hr
    obtain ⟨v, heval, hsimple⟩ := hop x y hx hy
    refine ⟨v, by simp [evalSimpleExpr, hx, hy, hsimple], (calls_ok hs.ok).mpr ?_⟩
    refine runs_evalBinary.mpr ⟨x, s, hcl, ?_⟩
    simp only [Continues, hs.ok]
    exact ⟨y, s, hcr, by simp [hs.ok, henv, heval]⟩
  | logic | not | funcCall | memberCall | arrAccess | dynLit | indexedMemberAccess | indexedMemberCall =>
    exact fun h => h.elim

theorem ExprSafe.not_funcCall {e : Expr} (h : ExprSafe rt args e) : ∀ name es, e ≠ .funcCall name es := by
  rintro name es rfl
  exact h

end Expressions

section Statements

variable {env : Env} {args : List Value}

theorem CallFrame.setField {rt s : Runtime} (hs : CallFrame args rt s) (i : ℕ) (field : Ident) (v : Value) :
    CallFrame args (rt.setInstanceField i field v) (s.setInstanceField i field v) where
  ok := hs.ok
  instances := by simp only [setInstanceField, hs.instances]
  names := hs.names
  slots := hs.slots
  noTail := hs.noTail
  noReturn := hs.noReturn

/-- The end of a body that began in `s₀`: what the trampoline takes its result from. Apart from that only
fields were assigned. -/
structure BodyEnd (s₀ : Runtime) (v : Value) (instances : List Instance) (s : Runtime) : Prop where
  ok : s.hadError = false
  noTail : s.ret.tailCall = none
  value : (if s.ret.active then s.ret.value else .nil) = v
  frame : s = { s₀ with instances := instances, ret := s.ret }

theorem CallFrame.bodyEnd {rt s : Runtime} (hs : CallFrame args rt s) : BodyEnd s .nil rt.instances s :=
  ⟨hs.ok, hs.noTail, by simp [hs.noReturn], by rw [← hs.instances]⟩

theorem CallFrame.bodyEnd_return {rt s : Runtime} (hs : CallFrame args rt s) (v : Value) :
    BodyEnd s v rt.instances ((Update.setReturn v).apply s) :=
  ⟨hs.ok, hs.noTail, by simp [Update.apply], by rw [← hs.instances]; rfl⟩

theorem StmtsSafe.runs (henv : env.evalOp = evalBinaryOp) {body : List Stmt} : ∀ {rt s : Runtime},
    CallFrame args rt s → rt.hadError = false → StmtsSafe args rt body →
    ∃ v instances s', (interp env).Runs (inlineStmts args body) rt (some v) { rt with instances := instances } ∧
      v.type ≠ .arr ∧ (interp env).Runs (runBody body) s () s' ∧ BodyEnd s v instances s' := by
  induction body with
  | nil =>
    intro rt s hs _ _
    exact ⟨.nil, rt.instances, s, by simp [inlineStmts], nofun, by simp [runBody], hs.bodyEnd⟩
  | cons st rest ih =>
    intro rt s hs hrt hsafe
    cases st with
    | memberAssign owner field value =>
      obtain ⟨i, hi, hvalue, hrest⟩ := hsafe
      obtain ⟨x, hx, hcall⟩ := hvalue.evaluates henv hs
      obtain ⟨v, instances, s', hinl, hv, hbody, hend⟩ := ih (hs.setField i field x) hrt (hrest x hx)
      refine ⟨v, instances, s', ?_, hv, ?_, hend.ok, hend.noTail, hend.value, hend.frame⟩
      · have hres : rt.resolveInstance owner = some i := by simp only [resolveInstance, hi]
        simpa [inlineStmts, hres, hx, interp, Update.apply, setInstanceField, hrt] using hinl
      · refine runs_runBody_cons.mpr ⟨.nil, s.setInstanceField i field x, ?_, ?_⟩
        · refine (calls_ok hs.ok).mpr (runs_execMemberAssign.mpr ?_)
          rw [hs.blockInstFind hi]
          refine runs_evalFor.mpr ⟨x, s, hcall, ?_⟩
          simp [Continues, hs.ok, Update.apply]
        · have hs' := hs.setField i field x
          simpa [hs'.ok, hs'.noReturn, hs'.noTail] using hbody
    | returnStmt value =>
      cases value with
      | none =>
        refine ⟨.nil, rt.instances, (Update.setReturn .nil).apply s, by simp [inlineStmts], nofun, ?_,
          hs.bodyEnd_return .nil⟩
        refine runs_runBody_cons.mpr ⟨.nil, (Update.setReturn .nil).apply s, (calls_ok hs.ok).mpr ?_,
          by simp [Update.apply]⟩
        simp only [step, execStmt, execReturn, runs_modify_bind, runs_pure, true_and]
        rfl
      | some e =>
        obtain ⟨hsafe, harr⟩ := hsafe
        obtain ⟨x, hx, hcall⟩ := ExprSafe.evaluates henv hs hsafe
        refine ⟨x, rt.instances, (Update.setReturn x).apply s, by simp [inlineStmts, hx], harr x hx, ?_,
          hs.bodyEnd_return x⟩
        refine runs_runBody_cons.mpr ⟨x, (Update.setReturn x).apply s, (calls_ok hs.ok).mpr ?_,
          by simp [Update.apply]⟩
        exact (runs_execReturn (ExprSafe.not_funcCall hsafe)).mpr ⟨s, hcall, rfl⟩
    | varDecl | assign | ifStmt | whileStmt | forStmt | arrDecl | arrAssign | funcDecl | blockDecl
    | typeofInst | danger | free | importStd | exprStmt => exact hsafe.elim

end Statements

section Calls

variable {env : Env} {fn : FuncDecl} {args : List Value} {rt : Runtime}

theorem callFrame_startBody (hrt : rt.hadError = false) (i : ℕ) : CallFrame args rt
    ((rt.enterFrame (some i) true).startBody fn (args.map arrRef) rt.stackSize) where
  ok := hrt
  instances := rfl
  names := rfl
  slots off v hv hne href := by
    obtain ⟨hlt, -⟩ := List.getElem?_eq_some_iff.mp hv
    have hslot : ((rt.enterFrame (some i) true).startBody fn (args.map arrRef) rt.stackSize).stack off
        = v := by simp only [startBody, List.getElem?_map, hv, Option.map_some, href]
    have hsize : off < ((rt.enterFrame (some i) true).startBody fn (args.map arrRef)
        rt.stackSize).stackSize := by simp [startBody, enterFrame, hlt]
    simp [slotValue, hsize, hslot, hne]
  noTail := rfl
  noReturn := rfl

theorem runs_copyResult {s : Runtime} {v : Value} (h : v.type ≠ .arr) : (interp env).Runs (copyResult v) s v s := by
  cases v <;> simp_all [copyResult, type]

theorem runs_callWith {i : ℕ} {v : Value} {instances : List Instance} {s : Runtime}
    (hrt : rt.hadError = false) (hdepth : rt.callDepth < fluxaMaxDepth) (hv : v.type ≠ .arr)
    (hbody : (interp env).Runs (runBody fn.body)
      ((rt.enterFrame (some i) true).startBody fn (args.map arrRef) rt.stackSize) () s)
    (hend : BodyEnd ((rt.enterFrame (some i) true).startBody fn (args.map arrRef) rt.stackSize)
      v instances s) :
    ∃ rt', (interp env).Runs (callWith fn (some i) args) rt v rt' ∧ rt'.instances = instances := by
  refine ⟨(Bracket.call (some i)).leave rt
    ((Update.releaseSlots 0).apply (Update.takeReturn.apply s)), ?_, congrArg Runtime.instances hend.frame⟩
  rw [callWith, runs_read_bind, if_neg (Nat.not_le.mpr hdepth)]
  refine (runs_bracket_ok hrt).mpr ⟨_, (iterates_call ?_).mpr (.inr ?_), rfl⟩
  · exact hrt
  simp only [callRound, runs_modify_bind, runs_bind (runBody _), runs_read_bind]
  refine ⟨(), s, hbody, ?_⟩
  simp only [hend.ok, Bool.false_eq_true, if_false, hend.noTail, hend.value, runs_modify_bind,
    runs_bind (copyResult _)]
  exact ⟨v, _, runs_copyResult hv, by simp⟩

end Calls

theorem GivesUp.declines {env : Env} {fn : FuncDecl} {args : List Value} {rt rt' : Runtime} {o : Option Value}
    (h : GivesUp rt fn.body) (hrun : (interp env).Runs (methodTryInline fn args) rt o rt') : o = none ∧ rt' = rt := by
  unfold methodTryInline at hrun
  split at hrun
  · revert h hrun
    unfold GivesUp
    split <;> simp_all [inlineStmts]
  · simpa using hrun

/-- **Inlining is sound on bodies that are safe for it.** -/
theorem inlineSound_of_inlineSafe (env : Env) (henv : env.evalOp = evalBinaryOp) (fn : FuncDecl) (i : ℕ)
    (args : List Value) (rt : Runtime) (h : InlineSafe fn args rt) : InlineSound env fn i args rt := by
  rcases h with hgives | ⟨hrt, hdepth, hsafe⟩
  · constructor
    · intro v rt' hrun
      exact nomatch (hgives.declines hrun).1
    · intro rt' hrun
      rw [(hgives.declines hrun).2]
  · obtain ⟨w, instances, s, hinl, hw, hbody, hend⟩ := hsafe.runs henv (callFrame_startBody hrt i) hrt
    by_cases hall : fn.body.all (stmtIsInlinable fn.paramCount)
    · constructor
      · intro v rt' hrun
        rw [methodTryInline, if_pos hall] at hrun
        obtain ⟨hv, rfl⟩ := hrun.unique hinl
        obtain rfl := Option.some.inj hv
        exact runs_callWith hrt hdepth hw hbody hend
      · intro rt' hrun
        rw [methodTryInline, if_pos hall] at hrun
        exact nomatch (hrun.unique hinl).1
    · constructor
      · intro v rt' hrun
        rw [methodTryInline, if_neg hall] at hrun
        simp at hrun
      · intro rt' hrun
        rw [methodTryInline, if_neg hall, runs_pure] at hrun
        rw [hrun.2]

/-- A state with one instance `C`, whose field `n` is zero. -/
def counterState : Runtime :=
  { start .script [] with
    instances := [⟨"C", "C", true, [("n", .int 0)], []⟩]
    instanceNames := [("C", 0)] }

/-- `fn add(int k) int { C.n = C.n + k  return C.n }` -/
def addMethod : FuncDecl where
  id := 0
  name := "add"
  params := [("k", ⟨.int, false⟩)]
  returnType := .int
  body := [.memberAssign "C" "n" (.binary .add (.memberAccess "C" "n") (.identifier "k" ⟨some 0, true⟩)),
    .returnStmt (some (.memberAccess "C" "n"))]

theorem inlineSound_addMethod : InlineSound .plain addMethod 0 [.int 5] counterState := by
  refine inlineSound_of_inlineSafe .plain rfl addMethod 0 [.int 5] counterState (.inr ⟨rfl, by decide, ?_⟩)
  have hsum : InlineAgrees .add (.int 0) (.int 5) :=
    ⟨.of_natAbs_lt (by decide), .of_natAbs_lt (by decide), 5, by decide, .of_natAbs_lt (by decide)⟩
  refine ⟨0, rfl, ⟨⟨0, .int 0, rfl, rfl⟩, ⟨by decide, by decide, rfl, 0, .int 5, rfl, rfl, nofun, rfl⟩, ?_⟩, ?_⟩
  · rintro x y hx hy
    obtain rfl := Option.some.inj hx
    obtain rfl := Option.some.inj hy
    exact hsum.sameEntry
  · rintro v hv
    obtain rfl : .int 5 = v := Option.some.inj hv
    refine ⟨⟨0, .int 5, rfl, rfl⟩, fun w hw => ?_⟩
    obtain rfl : .int 5 = w := Option.some.inj hw
    exact nofun

/-- `fn bump() int { C.n = C.n + 1  int k = 0  return 1 }` -/
def bumpMethod : FuncDecl where
  id := 0
  name := "bump"
  params := []
  returnType := .int
  body := [.memberAssign "C" "n" (.binary .add (.memberAccess "C" "n") (.intLit 1)),
    .varDecl .int "k" (.intLit 0) false ⟨some 0, false⟩,
    .returnStmt (some (.intLit 1))]

/-- `Block C { int n = 0  bump }`, `int r = 0` and `while r < 1 { r = C.bump() }`. -/
def bumpProgram : List Stmt :=
  [.blockDecl "C" [.varDecl .int "n" (.intLit 0) false {}, .funcDecl 0 "bump" [] .int bumpMethod.body],
   .varDecl .int "r" (.intLit 0) false {},
   .whileStmt (.binary .lt (.identifier "r" {}) (.intLit 1)) [.assign "r" (.memberCall "C" "bump" []) {}]]

/-- The inliner adds one and gives up; the fallback adds one again. The loop calls `bump` once and leaves
two in the field where the tree walker leaves one. -/
theorem inlined_assignment_made_twice :
    ¬InlineSound .plain bumpMethod 0 [] counterState ∧
    (resolverRun 16 bumpProgram).map (fun p =>
      let field (env : Env) := ((runtimeExec env 20 p []).2.instanceField 0 "n").bind int?
      (field .plain, field { Env.plain with compileLoops := false })) = some (some 2, some 1) := by
  refine ⟨fun h => ?_, by decide +kernel⟩
  have hsame := h.declined (counterState.setInstanceField 0 "n" (.int 1)) ⟨0, rfl⟩
  simp [counterState, setInstanceField, Table.set] at hsame

end Fluxa
