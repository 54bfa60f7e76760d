import Fluxa.Base.Prog
import Fluxa.Runtime

/-! The alphabet of the interpreter's programs: what a program may do to the state, the nodes it may
evaluate, and the brackets around loops, calls, `danger` blocks and compiled code. Every change of the
state is one of these updates, or the start or the end of a bracket. -/

namespace Fluxa

/-- The nodes `eval` is called on; all of them give nil at once when `had_error` is set. -/
inductive Proc where
  | expr (e : Expr)
  | stmt (s : Stmt)
  | block (body : List Stmt)

/-- A call of a library: its value, the messages it pushed, as what, and whether it set `had_error`. -/
structure LibResult where
  value : Value
  errors : List String
  failed : Bool
  kind : ErrKind := .fluxa
  context : Ident := "<lib>"

/-- A call of a C function: its value, the messages it pushed, and what it wrote to its arguments, by position. -/
structure FfiResult where
  value : Value
  errors : List String
  written : List (ℕ × Value)

/-- What the interpreter is run with: the libraries of `fluxa.toml`, its own and those in C, the meaning of the
operators in the evaluator and in the VM, and the limit of an interpreted loop, which `-dev` mode lifts. `tailCalls` is
off in the interpreter that makes every call an ordinary one, and `compileLoops` in the one that
interprets every loop. -/
structure Env where
  stdLib : Ident → Bool
  lib : Ident → Option (Ident → List Value → LibResult)
  ffi : Ident → Option (Ident → List Value → FfiResult)
  evalOp : BinOp → Value → Value → OpResult
  vmOp : BinOp → Value → Value → Option Value
  whileLimit : Option ℕ
  tailCalls : Bool
  compileLoops : Bool

/-- The interpreter of the source in script mode, without libraries. -/
def Env.plain : Env where
  stdLib := fun _ => false
  lib := fun _ => none
  ffi := fun _ => none
  evalOp := evalBinaryOp
  vmOp := vmBinaryOp
  whileLimit := some 100000000
  tailCalls := true
  compileLoops := true

inductive Update where
  | raise (e : RtError)
  | raiseHard (e : RtError)
  | clearError
  | declareVar (t : TypeName) (ref : Ref) (name : Ident) (v : Value) (errBefore : ℕ)
  | declarePrst (t : TypeName) (ref : Ref) (name : Ident) (v : Value)
  | rebuildPrst (t : TypeName) (ref : Ref) (name : Ident) (v : Value)
  | restorePrst (ref : Ref) (name : Ident) (e : PrstEntry) (src : Option Value)
  | assignVar (name : Ident) (ref : Ref) (v : Value) (errBefore : ℕ)
  | bindVar (ref : Ref) (name : Ident) (v : Value)
  | declareFunc (fn : FuncDecl)
  | setReturn (v : Value)
  | setTailCall (fn : FuncDecl) (args : List Value)
  | takeReturn
  | declareArr (name : Ident) (data : List Value)
  | persistArr (name : Ident) (a : ℕ)
  | storeElem (name : Ident) (a idx : ℕ) (v : Value)
  | allocArr (a : Arr)
  | allocDyn (items : List Value)
  | adopt (v : Value)
  | storeDyn (d idx : ℕ) (v : Value)
  | setInstance (inst : Option ℕ)
  | setField (i : ℕ) (field : Ident) (v : Value)
  | addMethod (i : ℕ) (fn : FuncDecl)
  | freeVar (ref : Ref) (name : Ident)
  | registerDef (name : Ident) (members : List Stmt)
  | newInstance (name defName : Ident) (isRoot : Bool)
  | registerInstance (name : Ident) (i : ℕ)
  | startBody (fn : FuncDecl) (args : List Value) (callerSize : ℕ)
  | releaseSlots (start : ℕ)
  | reuseFrame (start : ℕ)
  | enterVm (nextReg maxSlot : ℕ)
  | setReg (a : ℕ) (v : Value)
  | syncPool
  | cacheChunk (id : ℕ) (chunk : Option Chunk)
  | readLine
  | libReport (r : LibResult)

namespace Runtime

/-- What a library call leaves behind (`rt_surface_lib_errors`): outside `danger` its messages are
printed, taken off the error stack again, and are an error. -/
def libReport (rt : Runtime) (r : LibResult) : Runtime :=
  let errStack := r.errors.foldl (fun st m => (⟨r.kind, .library m, r.context⟩ :: st).take errStackCap) rt.errStack
  if rt.dangerDepth = 0 ∧ rt.errStack.length < errStack.length then { rt with hadError := true }
  else { rt with errStack := errStack, hadError := rt.hadError || r.failed }

end Runtime

def Update.apply : Update → Runtime → Runtime
  | raise e, rt => rt.raise e
  | raiseHard e, rt => rt.raiseHard e
  | clearError, rt => { rt with hadError := false }
  | declareVar t ref name v n, rt => rt.declareVar t ref name v n
  | declarePrst t ref name v, rt => rt.declarePrst t ref name v
  | rebuildPrst t ref name v, rt => rt.rebuildPrst t ref name v
  | restorePrst ref name e src, rt => rt.restorePrst ref name e src
  | assignVar name ref v n, rt => rt.assignVar name ref v n
  | bindVar ref name v, rt => rt.set ref name v
  | declareFunc fn, rt => rt.declareFunc fn
  | setReturn v, rt => { rt with ret := { rt.ret with active := true, value := v } }
  | setTailCall fn args, rt => { rt with ret := { rt.ret with active := false, tailCall := some (fn, args) } }
  | takeReturn, rt => { rt with ret := { rt.ret with active := false } }
  | declareArr name data, rt => rt.declareArr name data
  | persistArr name a, rt => rt.persistArr name a
  | storeElem name a idx v, rt => rt.storeElem name a idx v
  | allocArr a, rt => rt.allocArr a
  | allocDyn items, rt => rt.allocDyn items
  | adopt v, rt => (rt.adopt v).2
  | storeDyn d idx v, rt => rt.storeDyn d idx v
  | setInstance inst, rt => { rt with currentInstance := inst }
  | setField i field v, rt => rt.setInstanceField i field v
  | addMethod i fn, rt => rt.addMethod i fn
  | freeVar ref name, rt => rt.freeVar ref name
  | registerDef name members, rt => rt.registerDef name members
  | newInstance name defName isRoot, rt => rt.newInstance name defName isRoot
  | registerInstance name i, rt => rt.registerInstance name i
  | startBody fn args callerSize, rt => rt.startBody fn args callerSize
  | releaseSlots start, rt => rt.releaseSlots start
  | reuseFrame start, rt => rt.reuseFrame start
  | enterVm nextReg maxSlot, rt => rt.enterVm nextReg maxSlot
  | setReg a v, rt => rt.setReg a v
  | syncPool, rt => rt.syncPool
  | cacheChunk id chunk, rt => { rt with fnChunks := (id, chunk) :: rt.fnChunks }
  | readLine, rt => { rt with stdin := rt.stdin.tail }
  | libReport r, rt => rt.libReport r

/-- `call` is the frame of `call_function` and `fallback` that of `vm_eval_fallback`; `vm` and `vmFn`
are the two dispatch loops. -/
inductive Bracket where
  | loop
  | danger
  | call (inst : Option ℕ)
  | fallback (inst : Option ℕ)
  | vm
  | vmFn

/-- A round of an interpreted loop. -/
inductive LoopState where
  | while (condition : Expr) (body : List Stmt) (limit : Option ℕ)
  | forIn (var : Ident) (ref : Ref) (body : List Stmt) (source : Value) (i : ℕ)

/-- A round of a trampoline. Parameters that come from VM registers are borrowed. -/
structure CallState where
  fn : FuncDecl
  args : List Value
  callerSize : ℕ
  borrowed : Bool

structure VmState where
  code : List Instr
  pc : ℕ

/-- A compiled function body runs on registers of its own. -/
structure FnState where
  code : List Instr
  pc : ℕ
  regs : ℕ → Value
  regCount : ℕ

namespace Bracket

def State : Bracket → Type
  | loop => LoopState
  | danger => List Stmt
  | call _ => CallState
  | fallback _ => CallState
  | vm => VmState
  | vmFn => FnState

/-- Only compiled code runs functions through the two bridges of the VM. -/
def inner : Bracket → Bool
  | fallback _ | vmFn => true
  | _ => false

def opens : Bracket → Bool
  | vm | vmFn => true
  | _ => false

/-- The brackets that are not entered with `had_error` set. -/
def guarded : Bracket → Bool
  | fallback _ | vmFn => false
  | _ => true

/-- The brackets whose rounds look at `had_error`. -/
def checked : Bracket → Bool
  | loop | danger | call _ => true
  | _ => false

def enter : Bracket → Runtime → Runtime
  | danger, rt => { rt with errStack := [], dangerDepth := 1 }
  | call inst, rt => rt.enterFrame inst true
  | fallback inst, rt => rt.enterFrame inst false
  | _, rt => rt

/-- `rt` is the state in which the bracket was entered. -/
def leave : Bracket → Runtime → Runtime → Runtime
  | danger, _, rt' => { rt' with dangerDepth := 0, hadError := false }
  | call _, rt, rt' => rt'.leaveFrame rt
  | fallback _, rt, rt' => rt'.leaveFrame rt
  | _, _, rt' => rt'

end Bracket

/-- The programs of the interpreter; those of the VM have the flag set. -/
abbrev RtProg (m : Bool) := Prog Runtime Update Proc Value Bracket.State Bracket.inner m

end Fluxa
