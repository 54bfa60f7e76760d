import Fluxa.Resolver
import Fluxa.EvalExpr

/-! The tree walker's statements (`eval`, `block_member_init`), the machine that runs them together with
the VM, and the top level of `runtime.c`. -/

namespace Fluxa

open Prog (read modify invoke undefined bracket)

section Statements

variable (env : Env)

/-- The statements of a block: unlike a body it does not stop at a pending tail call. -/
def runBlock : List Stmt → RtProg false Value
  | [] => pure .nil
  | st :: rest => do
      let _ ← invoke (.stmt st)
      let rt ← read
      if rt.hadError || rt.ret.active then pure .nil else runBlock rest

/-- `prst_init_is_replayable`. -/
def initIsReplayable : Expr → Bool
  | .intLit _ | .floatLit _ | .boolLit _ | .stringLit _ => true
  | .binary _ l r | .logic _ l r => initIsReplayable l && initIsReplayable r
  | _ => false

/-- Evaluates an expression for an update, which is not made after an error. -/
def evalFor (e : Expr) (u : Value → Update) : RtProg false Value := do
  let v ← invoke (.expr e)
  let rt ← read
  if rt.hadError then pure .nil
  else do
    modify (u v)
    pure .nil

/-- A `prst` declaration in project mode. -/
def execPrstDecl (t : TypeName) (name : Ident) (init : Expr) (ref : Ref) : RtProg false Value := do
  let rt ← read
  match rt.poolFind name with
  | none => evalFor init (.declarePrst t ref name)
  | some e =>
    if e.value.type = .nil ∧ e.declaredType ≠ .nil then evalFor init (.rebuildPrst t ref name)
    else if initIsReplayable init then evalFor init fun v => .restorePrst ref name e (some v)
    else do
      modify (.restorePrst ref name e none)
      pure .nil

def execVarDecl (t : TypeName) (name : Ident) (init : Expr) (persistent : Bool) (ref : Ref) :
    RtProg false Value := do
  let rt ← read
  if persistent ∧ rt.mode = .project then execPrstDecl t name init ref
  else evalFor init fun v => .declareVar t ref name v rt.errStack.length

def execAssign (name : Ident) (value : Expr) (ref : Ref) : RtProg false Value := do
  let rt ← read
  evalFor value fun v => .assignVar name ref v rt.errStack.length

def execIf (cond : Expr) (thn : List Stmt) (els : Option (List Stmt)) : RtProg false Value := do
  let v ← invoke (.expr cond)
  if v.truthy then invoke (.block thn)
  else match els with
    | some els => invoke (.block els)
    | none => pure .nil

def whileRound (cond : Expr) (body : List Stmt) (limit : Option ℕ) : RtProg false (LoopState ⊕ Value) := do
  if limit = some 0 then pure (.inr .nil)
  else do
    let v ← invoke (.expr cond)
    let rt ← read
    if rt.hadError || rt.ret.active || !v.truthy then pure (.inr .nil)
    else do
      let _ ← invoke (.block body)
      let rt ← read
      if rt.hadError || rt.ret.active then pure (.inr .nil)
      else pure (.inl (.while cond body (limit.map (· - 1))))

/-- `NODE_WHILE`: the VM if the loop compiles, the tree walker otherwise. -/
def execWhile (cond : Expr) (body : List Stmt) : RtProg false Value := do
  let rt ← read
  match if env.compileLoops then chunkCompileLoop (rt.probe none) cond body else none with
  | some chunk => do
      modify (.enterVm chunk.nextReg chunk.maxSlot)
      let _ ← bracket .vm nofun ⟨chunk.code, 0⟩
      modify .syncPool
      pure .nil
  | none => bracket .loop nofun (.while cond body env.whileLimit)

namespace Runtime

/-- What a `for` loop runs over. -/
def forSource (rt : Runtime) (ref : Ref) (name : Ident) : Option Value :=
  match ref.off.bind rt.slotValue with
  | some v => some v
  | none =>
    match rt.currentField name with
    | some v => some v
    | none =>
      match rt.scope.get? name with
      | some v => some v
      | none =>
        match if 0 < rt.callDepth then rt.globalTable.get? name else none with
        | some v => some v
        | none => if rt.mode = .project then (rt.poolFind name).map (·.value) else none

/-- The elements a `for` loop sees now. -/
def forItems (rt : Runtime) : Value → List Value
  | .arr a _ => rt.arrData a
  | .dyn d => rt.dynItems d
  | _ => []

end Runtime

def forRound (var : Ident) (ref : Ref) (body : List Stmt) (source : Value) (i : ℕ) :
    RtProg false (LoopState ⊕ Value) := do
  let rt ← read
  match (rt.forItems source)[i]? with
  | none => pure (.inr .nil)
  | some v => do
      modify (.bindVar ref var v)
      let _ ← invoke (.block body)
      let rt ← read
      if rt.hadError || rt.ret.active then pure (.inr .nil)
      else pure (.inl (.forIn var ref body source (i + 1)))

def execFor (var : Ident) (ref : Ref) (arr : Ident) (arrRef : Ref) (body : List Stmt) :
    RtProg false Value := do
  let rt ← read
  match rt.forSource arrRef arr with
  | none => fail (.forUndefined arr)
  | some v =>
    match v with
    | .arr _ _ | .dyn _ => bracket .loop nofun (.forIn var ref body v 0)
    | _ => fail (.notIterable arr)

/-- The checks on the elements of an array declaration. -/
def elemOk (t : TypeName) (v : Value) : Bool :=
  match typeNameToVal t with
  | none => true
  | some expected => v.type == .nil || v.type == expected

/-- What a copied array is filled up with. -/
def zeroElem : TypeName → Value
  | .float => .float (.ofInt 0)
  | .str => .str ""
  | .bool => .bool false
  | _ => .int 0

def evalElements (t : TypeName) : List Expr → List Value → RtProg false (Option (List Value))
  | [], data => pure (some data)
  | e :: es, data => do
      let v ← invoke (.expr e)
      let rt ← read
      if rt.hadError then pure none
      else if elemOk t v then evalElements t es (data ++ [v])
      else do
        modify (.raise (.arrElementType t data.length v.type))
        pure none

def execArrDecl (t : TypeName) (name : Ident) (size : ℕ) (init : ArrInit) (persistent : Bool) :
    RtProg false Value := do
  match init with
  | .default e => do
      let v ← invoke (.expr e)
      let rt ← read
      if rt.hadError then pure .nil
      else match v with
        | .arr a _ =>
          let data := rt.arrData a
          if size < data.length then fail (.arrCopySize data.length size)
          else do
            modify (.declareArr name (data ++ List.replicate (size - data.length) (zeroElem t)))
            pure .nil
        | v =>
          if 0 < size ∧ !elemOk t v then fail (.arrDefaultType t v.type)
          else do
            modify (.declareArr name (List.replicate size v))
            pure .nil
  | .elements es => do
      match ← evalElements t (es.take size) [] with
      | none => pure .nil
      | some data => do
          let rt ← read
          modify (.declareArr name data)
          if persistent then modify (.persistArr name rt.nextArr)
          pure .nil

def execDynAssign (d : ℕ) (index value : Expr) : RtProg false Value := do
  let idx ← invoke (.expr index)
  let rt ← read
  if rt.hadError then pure .nil
  else match idx with
    | .int i =>
      if i.toInt < 0 then fail .dynIndexNegative
      else do
        -- the store is made even if the value failed
        let v ← invoke (.expr value)
        modify (.storeDyn d i.toInt.toNat v)
        pure .nil
    | _ => fail .dynIndexType

/-- The store of an element, whose type is checked against the element it replaces. -/
def execElemStore (name : Ident) (a : ℕ) (idx : ℕ) (value : Expr) : RtProg false Value := do
  let rt ← read
  let errBefore := rt.errStack.length
  let v ← invoke (.expr value)
  let rt ← read
  if rt.hadError then pure .nil
  else
    let old := (rt.arrData a).getD idx .nil
    if rt.errStack.length = errBefore ∧ old.type ≠ .nil ∧ old.type ≠ v.type then
      fail (.elementType name idx old.type v.type)
    else do
      modify (.storeElem name a idx v)
      pure .nil

def execArrStore (name : Ident) (ref : Ref) (index value : Expr) : RtProg false Value := do
  let idx ← invoke (.expr index)
  let rt ← read
  if rt.hadError then pure .nil
  else match idx with
    | .int i =>
      match rt.arrTarget ref name with
      | none => fail (.notAnArray name)
      | some a =>
        let size := (rt.arrData a).length
        if 0 ≤ i.toInt ∧ i.toInt < size then execElemStore name a i.toInt.toNat value
        else fail (.arrayIndexBounds name i.toInt size)
    | _ => fail .arrayIndexType

def execArrAssign (name : Ident) (ref : Ref) (index value : Expr) : RtProg false Value := do
  let v ← getVar ref name
  let rt ← read
  -- the variable is only looked at for a dyn, so that an undefined one is no error yet
  if rt.hadError then modify .clearError
  match if rt.hadError then .nil else v with
  | .dyn d => execDynAssign d index value
  | _ => execArrStore name ref index value

/-- `NODE_RETURN`: a call of a function in return position is left to the trampoline. -/
def execReturn : Option Expr → RtProg false Value
  | none => do
      modify (.setReturn .nil)
      pure .nil
  | some e => do
      let rt ← read
      let tail? : Option (FuncDecl × List Expr) :=
        match e with
        | .funcCall name args =>
          match rt.findFunc name with
          | some (.func fn) =>
            if env.tailCalls ∧ 0 < rt.callDepth ∧ !builtinIs name then some (fn, args) else none
          | _ => none
        | _ => none
      let ordinary : RtProg false Value := do
        let v ← invoke (.expr e)
        modify (.setReturn v)
        pure v
      match tail? with
      | none => ordinary
      | some (fn, args) => do
          let vs ← evalArgs args
          let rt ← read
          if rt.hadError then ordinary
          else do
            modify (.setTailCall fn vs)
            pure .nil

section Blocks

/-- `block_member_init`. -/
def initMember (i : ℕ) : Stmt → RtProg false Unit
  | .varDecl _ name init _ _ => do
      let v ← invoke (.expr init)
      let rt ← read
      if rt.hadError then pure () else modify (.setField i name v)
  | .funcDecl id name params returnType body => modify (.addMethod i ⟨id, name, params, returnType, body⟩)
  | .arrDecl _ name size init _ => do
      let data ← match init with
        | .default e => do
            let v ← invoke (.expr e)
            let rt ← read
            match v with
            | .arr a _ =>
              let data := (rt.arrData a).take size
              pure (data ++ List.replicate (size - data.length) Value.nil)
            | v => pure (List.replicate size v)
        | .elements es => evalArgs (es.take size)
      let rt ← read
      modify (.allocArr (.ofList data))
      modify (.setField i name (.arr rt.nextArr true))
  | _ => pure ()

def initMembers (i : ℕ) : List Stmt → RtProg false Unit
  | [] => pure ()
  | st :: rest => do
      initMember i st
      initMembers i rest

/-- `block_inst_create` and the store of the new instance. -/
def createInstance (name defName : Ident) (isRoot : Bool) : RtProg false Value := do
  let rt ← read
  modify (.newInstance name defName isRoot)
  initMembers rt.nextInstance (rt.blockMembers defName)
  modify (.registerInstance name rt.nextInstance)
  pure .nil

def execBlockDecl (name : Ident) (members : List Stmt) : RtProg false Value := do
  modify (.registerDef name members)
  createInstance name name true

def execTypeofInst (inst origin : Ident) : RtProg false Value := do
  let rt ← read
  let isInstance := ((rt.blockInstFind origin).bind rt.instance?).any fun b => !b.isRoot
  if isInstance then fail (.typeofInstance origin)
  else if (rt.blockDefs.lookup origin).isNone then fail (.typeofUndefined origin)
  else createInstance inst origin false

def execMemberAssign (owner field : Ident) (value : Expr) : RtProg false Value := do
  let rt ← read
  match rt.resolveInstance owner with
  | none => fail (.undefinedInstance owner)
  | some i => evalFor value (.setField i field)

end Blocks

def execFree (name : Ident) (ref : Ref) : RtProg false Value := do
  let rt ← read
  if rt.mode = .project ∧ rt.poolHas name then failHard (.freePrst name)
  else do
    modify (.freeVar ref name)
    pure .nil

def execImportStd (lib : Ident) : RtProg false Value :=
  if env.stdLib lib || (lib == "ft" && env.stdLib "flxthread") then pure .nil
  else fail (.libNotDeclared lib)

def execStmt : Stmt → RtProg false Value
  | .varDecl t name init persistent ref => execVarDecl t name init persistent ref
  | .assign name value ref => execAssign name value ref
  | .ifStmt cond thn els => execIf cond thn els
  | .whileStmt cond body => execWhile env cond body
  | .forStmt var ref arr arrRef body => execFor var ref arr arrRef body
  | .arrDecl t name size init persistent => execArrDecl t name size init persistent
  | .arrAssign name ref index value => execArrAssign name ref index value
  | .funcDecl id name params returnType body => do
      modify (.declareFunc ⟨id, name, params, returnType, body⟩)
      pure .nil
  | .returnStmt value => execReturn env value
  | .blockDecl name members => execBlockDecl name members
  | .typeofInst inst origin => execTypeofInst inst origin
  | .memberAssign owner field value => execMemberAssign owner field value
  | .danger body => bracket .danger nofun body
  | .free name ref => execFree name ref
  | .importStd lib => execImportStd env lib
  | .exprStmt call => invoke (.expr call)

end Statements

section Machine

variable (env : Env)

def step : Proc → RtProg false Value
  | .expr e => evalExpr env e
  | .stmt s => execStmt env s
  | .block body => runBlock body

def loopRound : LoopState → RtProg false (LoopState ⊕ Value)
  | .while cond body limit => whileRound cond body limit
  | .forIn var ref body source i => forRound var ref body source i

def dangerRound (body : List Stmt) : RtProg false (List Stmt ⊕ Value) := do
  let _ ← invoke (.block body)
  pure (.inr .nil)

def round : (b : Bracket) → b.State → RtProg b.opens (b.State ⊕ Value)
  | .loop, j => loopRound j
  | .danger, j => dangerRound j
  | .call _, j => callRound j
  | .fallback _, j => fallbackRound j
  | .vm, j => vmRun env j
  | .vmFn, j => vmRunFn env j

def interp : Machine Runtime Update Proc Value Bracket.State Bracket.inner where
  apply := Update.apply
  note := id
  exhaust := id
  halt rt := if rt.hadError then some .nil else none
  guarded := Bracket.guarded
  checked := Bracket.checked
  opens := Bracket.opens
  enter := Bracket.enter
  leave := Bracket.leave
  step := step env
  body := round env

/-- The top level: statements up to the first error. -/
def runProgram : List Stmt → RtProg false Unit
  | [] => pure ()
  | st :: rest => do
      let _ ← invoke (.stmt st)
      let rt ← read
      if rt.hadError then pure () else runProgram rest

def startState (program : List Stmt) (stdin : List String) : Runtime :=
  .start (if resolverHasPrst program then .project else .script) stdin

/-- Runs a resolved program with the given fuel. -/
def runtimeExec (n : ℕ) (program : List Stmt) (stdin : List String) : Option Unit × Runtime :=
  (interp env).runs n (runProgram program) (startState program stdin)

end Machine

end Fluxa
