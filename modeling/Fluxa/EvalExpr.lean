import Fluxa.Vm

/-! The tree walker's expressions (`eval`, `eval_binary`), calls (`call_function` and the trampoline of
`vm_eval_fallback`) and builtins, one program per node. The FFI, output and the checks for memory are
left out. -/

namespace Fluxa

open Prog (read modify invoke undefined bracket)

/-- Reports an error; the value of the node is nil. -/
def fail (e : RtError) : RtProg false Value := do
  modify (.raise e)
  pure .nil

/-- `rt_get`. -/
def getVar (ref : Ref) (name : Ident) : RtProg false Value := do
  let rt ← read
  match rt.lookup ref name with
  | some v => pure v
  | none => fail (.undefinedVariable name)

section Calls

def evalArgs : List Expr → RtProg false (List Value)
  | [] => pure []
  | e :: es => do
      let v ← invoke (.expr e)
      let vs ← evalArgs es
      pure (v :: vs)

/-- `call_function` up to the frame, which is not entered after an error. -/
def callFunction (fn : FuncDecl) (args : List Expr) (inst : Option ℕ) : RtProg false Value := do
  let rt ← read
  if fluxaMaxDepth ≤ rt.callDepth then fail .stackOverflow
  else if args.length ≠ fn.paramCount then fail (.arity fn.name fn.paramCount args.length)
  else do
    let vs ← evalArgs args
    let rt ← read
    bracket (.call inst) nofun ⟨fn, vs, rt.stackSize, false⟩

/-- The statements of a body, up to an error, a return or a tail call. -/
def runBody : List Stmt → RtProg false Unit
  | [] => pure ()
  | st :: rest => do
      let _ ← invoke (.stmt st)
      let rt ← read
      if rt.hadError || rt.ret.active || rt.ret.tailCall.isSome then pure () else runBody rest

/-- The array a function returns is copied before its frame goes. -/
def copyResult (v : Value) : RtProg false Value := do
  match v with
  | .arr a true => do
      let rt ← read
      match rt.arr? a with
      | some b =>
        if b.data.isEmpty then pure v
        else do
          modify (.allocArr b)
          pure (.arr rt.nextArr true)
      | none => pure v
  | v => pure v

/-- The slots a frame gives up begin behind the parameters borrowed from the VM. -/
def CallState.released (j : CallState) : ℕ := if j.borrowed then j.args.length else 0

/-- A round of the trampoline of `call_function`. -/
def callRound (j : CallState) : RtProg false (CallState ⊕ Value) := do
  modify (.startBody j.fn (j.args.map Value.arrRef) j.callerSize)
  runBody j.fn.body
  let rt ← read
  if rt.hadError then do
    modify (.releaseSlots 0)
    pure (.inr .nil)
  else match rt.ret.tailCall with
    | some (fn, args) =>
      if args.length ≠ fn.paramCount then do
        modify (.raise (.arityTail fn.name fn.paramCount args.length))
        modify (.releaseSlots 0)
        pure (.inr .nil)
      else do
        modify (.reuseFrame 0)
        pure (.inl ⟨fn, args, j.callerSize, false⟩)
    | none => do
        modify .takeReturn
        let v ← copyResult (if rt.ret.active then rt.ret.value else .nil)
        modify (.releaseSlots 0)
        pure (.inr v)

/-- A round of the trampoline of `vm_eval_fallback`, which checks the number of arguments at its
start. -/
def fallbackRound (j : CallState) : RtProg false (CallState ⊕ Value) := do
  if j.args.length ≠ j.fn.paramCount then do
    modify (.raise (.arityTail j.fn.name j.fn.paramCount j.args.length))
    modify (.releaseSlots j.released)
    pure (.inr .nil)
  else do
    modify (.startBody j.fn j.args j.callerSize)
    runBody j.fn.body
    let rt ← read
    if rt.hadError then do
      modify (.releaseSlots j.released)
      pure (.inr .nil)
    else match rt.ret.tailCall with
      | some (fn, args) => do
          modify (.reuseFrame j.released)
          pure (.inl ⟨fn, args, j.callerSize, false⟩)
      | none => do
          modify .takeReturn
          modify (.releaseSlots j.released)
          pure (.inr (if rt.ret.active then rt.ret.value else .nil))

namespace Runtime

/-- What a call finds under a name: the frame, the running method's Block, the top level. -/
def findFunc (rt : Runtime) (name : Ident) : Option Value :=
  match rt.scope.get? name with
  | some v => some v
  | none =>
    match rt.currentMethod name with
    | some fn => some (.func fn)
    | none => if 0 < rt.callDepth then rt.globalTable.get? name else none

/-- A function runs as a method when the running method's Block has a method of its name. -/
def callInstance (rt : Runtime) (name : Ident) : Option ℕ :=
  if (rt.currentMethod name).isSome then rt.currentInstance else none

end Runtime

end Calls

section Builtins

/-- The prompt of `input`. -/
def evalPrompt : List Expr → RtProg false Unit
  | [] => pure ()
  | e :: _ => do
      let _ ← invoke (.expr e)
      pure ()

def failHard (e : RtError) : RtProg false Value := do
  modify (.raiseHard e)
  pure .nil

def builtinLen : List Expr → RtProg false Value
  | [e] => do
      let v ← invoke (.expr e)
      let rt ← read
      if rt.hadError then pure .nil
      else match rt.lenOf? v with
        | some n => pure (.int (Int64.ofNat n))
        | none => failHard (.lenType v.type)
  | _ => failHard .lenArity

/-- The buffer is zeroed, so that it reads as the empty string. -/
def builtinStrAlloc : List Expr → RtProg false Value
  | [e] => do
      let v ← invoke (.expr e)
      let rt ← read
      if rt.hadError then pure .nil
      else match v with
        | .int i => if 0 < i.toInt then pure (.str "") else failHard .strAllocType
        | _ => failHard .strAllocType
  | _ => failHard .strAllocArity

/-- A line loses a carriage return at its end. -/
def stripReturn (line : String) : String :=
  match line.toList.reverse with
  | '\r' :: rest => String.ofList rest.reverse
  | _ => line

def builtinInput (args : List Expr) : RtProg false Value := do
  evalPrompt args
  let rt ← read
  match rt.stdin with
  | [] => pure (.str "")
  | line :: _ => do
      modify .readLine
      pure (.str (stripReturn line))

/-- `builtin_dispatch`. -/
def builtinDispatch (name : Ident) (args : List Expr) : RtProg false Value :=
  match name with
  | "print" => do
      let _ ← evalArgs args
      pure .nil
  | "len" => builtinLen args
  | "input" => builtinInput args
  | "input_int" => do
      evalPrompt args
      readInt
  | "str_alloc" => builtinStrAlloc args
  | _ => pure .nil

end Builtins

section Expressions

variable (env : Env)

def evalIdentifier (name : Ident) (ref : Ref) : RtProg false Value :=
  match name with
  | "nil" => pure .nil
  | "err" => do
      let rt ← read
      pure (if rt.errStack.isEmpty then .nil else .errStack)
  | name => getVar ref name

/-- `eval_binary` for the operators that evaluate both operands. -/
def evalBinary (op : BinOp) (l r : Expr) : RtProg false Value := do
  let x ← invoke (.expr l)
  let rt ← read
  if rt.hadError then pure .nil
  else do
    let y ← invoke (.expr r)
    let rt ← read
    if rt.hadError then pure .nil
    else match env.evalOp op x y with
      | .value v => pure v
      | .error e => fail e
      | .undefined => undefined

def evalNot (e : Expr) : RtProg false Value := do
  let v ← invoke (.expr e)
  let rt ← read
  pure (if rt.hadError then .nil else .bool !v.truthyNot)

/-- The operand that decides, or else the right one. -/
def LogicOp.shortCircuits : LogicOp → Bool → Bool
  | .and, b => !b
  | .or, b => b

def evalLogic (op : LogicOp) (l r : Expr) : RtProg false Value := do
  let x ← invoke (.expr l)
  let rt ← read
  if rt.hadError then pure .nil
  else if op.shortCircuits x.truthyLogic then pure (.bool x.truthyLogic)
  else do
    let y ← invoke (.expr r)
    let rt ← read
    pure (if rt.hadError then .nil else .bool y.truthyLogic)

def evalFuncCall (name : Ident) (args : List Expr) : RtProg false Value := do
  if builtinIs name then builtinDispatch name args
  else do
    let rt ← read
    match rt.findFunc name with
    | none => fail (.undefinedFunction name)
    | some (.func fn) => callFunction fn args (rt.callInstance name)
    | some _ => fail (.notAFunction name)

def evalMemberAccess (owner field : Ident) : RtProg false Value := do
  let rt ← read
  match rt.resolveInstance owner with
  | none => fail (.undefinedInstance owner)
  | some i =>
    match rt.instanceField i field with
    | some v => pure v
    | none => fail (.noMember owner field)

/-- The arguments as a library is given them; `none` after an error. -/
def evalLibArgs : List Expr → RtProg false (Option (List Value))
  | [] => pure (some [])
  | e :: es => do
      let v ← invoke (.expr e)
      let rt ← read
      if rt.hadError then pure none
      else do
        let vs ← evalLibArgs es
        pure (vs.map (v :: ·))

def writeArg (args : List Expr) (i : ℕ) (v : Value) : RtProg false Unit :=
  match args[i]? with
  | some (.identifier x ref) => modify (.bindVar ref x v)
  | _ => pure ()

/-- The variables among the arguments get what a C function has written to them. -/
def writeBack (args : List Expr) : List (ℕ × Value) → RtProg false Unit
  | [] => pure ()
  | (i, v) :: rest => do
      writeArg args i v
      writeBack args rest

/-- A call of a function of a C library, which is allowed inside `danger` only. -/
def evalFfiCall (call : Ident → List Value → FfiResult) (owner method : Ident) (args : List Expr) :
    RtProg false Value := do
  let rt ← read
  if rt.dangerDepth = 0 then fail (.ffiOutsideDanger owner method)
  else do
    let vs ← evalArgs args
    let rt ← read
    if rt.hadError then pure .nil
    else do
      let r := call method vs
      modify (.libReport ⟨r.value, r.errors, false, .cFfi, owner⟩)
      writeBack args r.written
      pure r.value

/-- `NODE_MEMBER_CALL`. The first sixteen arguments are evaluated for a library; a Block's method and a C function
evaluate them again. -/
def evalMemberCall (owner method : Ident) (args : List Expr) : RtProg false Value := do
  match ← evalLibArgs (args.take 16) with
  | none => pure .nil
  | some vs =>
    match env.lib owner with
    | some call => do
        let r := call method vs
        modify (.libReport r)
        pure r.value
    | none => do
        let rt ← read
        match rt.resolveInstance owner with
        | none =>
          match env.ffi owner with
          | some call => evalFfiCall call owner method args
          | none => fail (if owner ∈ RtError.hintedLibs then .libNotEnabled owner else .undefinedOwner owner)
        | some i =>
          match rt.instanceMethod i method with
          | none => fail (.noMethod owner method)
          | some fn => callFunction fn args (some i)

namespace Runtime

/-- What `NODE_ARR_ACCESS` indexes. -/
def arrAccessValue (rt : Runtime) (ref : Ref) (name : Ident) : Value :=
  match ref.off.bind rt.slotValue with
  | some v => v
  | none =>
    match rt.scope.get? name with
    | some v => v
    | none => (rt.currentField name).getD .nil

/-- The array `NODE_ARR_ASSIGN` writes to. -/
def arrTarget (rt : Runtime) (ref : Ref) (name : Ident) : Option ℕ :=
  match ref.off.bind fun off => (rt.slotValue off).bind Value.arr? with
  | some a => some a
  | none =>
    match rt.currentField name with
    | some v => v.arr?
    | none => (rt.scope.get? name).bind Value.arr?

end Runtime

def evalErrAccess (index : Expr) : RtProg false Value := do
  let rt ← read
  if rt.errStack.isEmpty then pure .nil
  else do
    match ← invoke (.expr index) with
    | .int i => do
        let rt ← read
        let i := i.toInt32.toInt
        if 0 ≤ i then pure (((rt.errStack[i.toNat]?).map fun e => .str e.error.message).getD .nil)
        else pure .nil
    | _ => fail .errIndexType

def evalArrAccess (name : Ident) (ref : Ref) (index : Expr) : RtProg false Value := do
  if name = "err" then evalErrAccess index
  else do
    let rt ← read
    match rt.arrAccessValue ref name with
    | .dyn d => do
        match ← invoke (.expr index) with
        | .int i => do
            let rt ← read
            let items := rt.dynItems d
            if 0 ≤ i.toInt ∧ i.toInt < items.length then pure (items.getD i.toInt.toNat .nil)
            else fail (.dynIndexBounds name i.toInt items.length)
        | _ => fail .dynIndexType
    | .arr a _ => do
        match ← invoke (.expr index) with
        | .int i => do
            let rt ← read
            let data := rt.arrData a
            if 0 ≤ i.toInt ∧ i.toInt < data.length then pure (data.getD i.toInt.toNat .nil)
            else fail (.arrayIndexBounds name i.toInt data.length)
        | _ => fail .arrayIndexType
    | _ => fail (.notAnArrayOrDyn name)

/-- The elements of a dyn literal, each taken over as it is evaluated. -/
def evalDynElements : List Expr → List Value → RtProg false (Option (List Value))
  | [], items => pure (some items)
  | e :: es, items => do
      let v ← invoke (.expr e)
      let rt ← read
      if rt.hadError then pure none
      else match v with
        | .dyn _ => do
            modify (.raise .dynInDyn)
            pure none
        | v => do
            modify (.adopt v)
            evalDynElements es (items ++ [(rt.adopt v).1])

def evalDynLit (elements : List Expr) : RtProg false Value := do
  match ← evalDynElements elements [] with
  | none => pure .nil
  | some items => do
      let rt ← read
      modify (.allocDyn items)
      pure (.dyn rt.nextDyn)

/-- The instance `name[index]`; `none` after an error. -/
def evalIndexedInst (name : Ident) (ref : Ref) (index : Expr) : RtProg false (Option (ℕ × ℕ)) := do
  let failed (e : RtError) : RtProg false (Option (ℕ × ℕ)) := do
    modify (.raise e)
    pure none
  let v ← getVar ref name
  let rt ← read
  if rt.hadError then pure none
  else match v with
    | .dyn d => do
        let idx ← invoke (.expr index)
        let rt ← read
        if rt.hadError then pure none
        else match idx with
          | .int i =>
            let items := rt.dynItems d
            if 0 ≤ i.toInt ∧ i.toInt < items.length then
              match items.getD i.toInt.toNat .nil with
              | .inst b => pure (some (b, i.toInt.toNat))
              | _ => failed (.notAnInstanceAt name i.toInt)
            else failed (.dynIndexBounds name i.toInt items.length)
          | _ => failed .dynIndexType
    | _ => failed (.notADyn name)

def evalIndexedMemberAccess (name : Ident) (ref : Ref) (index : Expr) (field : Ident) :
    RtProg false Value := do
  match ← evalIndexedInst name ref index with
  | none => pure .nil
  | some (b, i) => do
      let rt ← read
      match rt.instanceField b field with
      | some v => pure v
      | none => fail (.noMemberAt name i field)

/-- The arguments of an indexed method call are evaluated as if the method's instance were running. -/
def evalIndexedMemberCall (name : Ident) (ref : Ref) (index : Expr) (method : Ident) (args : List Expr) :
    RtProg false Value := do
  match ← evalIndexedInst name ref index with
  | none => pure .nil
  | some (b, i) => do
      let rt ← read
      match rt.instanceMethod b method with
      | none => fail (.noMethodAt name i method)
      | some fn => do
          modify (.setInstance (some b))
          let v ← callFunction fn args (some b)
          modify (.setInstance rt.currentInstance)
          pure v

def evalExpr : Expr → RtProg false Value
  | .intLit i => pure (.int i)
  | .floatLit d => pure (.float d)
  | .boolLit b => pure (.bool b)
  | .stringLit s => pure (.str s)
  | .identifier name ref => evalIdentifier name ref
  | .binary op l r => evalBinary env op l r
  | .logic op l r => evalLogic op l r
  | .not e => evalNot e
  | .funcCall name args => evalFuncCall name args
  | .memberAccess owner field => evalMemberAccess owner field
  | .memberCall owner method args => evalMemberCall env owner method args
  | .arrAccess name ref index => evalArrAccess name ref index
  | .dynLit elements => evalDynLit elements
  | .indexedMemberAccess name ref index field => evalIndexedMemberAccess name ref index field
  | .indexedMemberCall name ref index method args => evalIndexedMemberCall name ref index method args

end Expressions

end Fluxa
