import Fluxa.Update

/-! The VM (`vm_run`, `vm_run_fn`) and its callbacks into the runtime. A register that is read past the
end of the code returns. The inline caches of the callbacks, which keep what a name resolved to for
later instructions, are left out: names are resolved each time. Registers hold values and not
references, so the instructions that only retain or release a string are plain moves. -/

namespace Fluxa

open Prog (read modify undefined bracket)

namespace Value

def arr? : Value → Option ℕ
  | arr a _ => some a
  | _ => none

end Value

section Declarations

/-- `type_name_is_value`: the types whose values own no heap data. -/
def typeIsValue : TypeName → Bool
  | .int | .float | .bool => true
  | _ => false

/-- `ret_type_never_string`. -/
def retNeverString (t : TypeName) : Bool := typeIsValue t || t == .nil

/-- `block_decl_type`: the declared type of a member, and whether it is a method. -/
def blockDeclType (name : Ident) : List Stmt → Option (TypeName × Bool)
  | [] => none
  | .varDecl t x _ persistent _ :: rest =>
    if x = name then if persistent then none else some (t, false) else blockDeclType name rest
  | .funcDecl _ f _ ret _ :: rest => if f = name then some (ret, true) else blockDeclType name rest
  | _ :: rest => blockDeclType name rest

/-- `fn_local_arr_decl_type` and `block_arr_decl_type`. -/
def arrDeclType (name : Ident) : List Stmt → Option TypeName
  | [] => none
  | .arrDecl t x _ _ persistent :: rest =>
    if x = name then if persistent then none else some t else arrDeclType name rest
  | _ :: rest => arrDeclType name rest

/-- `block_owns_fn`. -/
def blockOwnsFn (fn : FuncDecl) (members : List Stmt) : Bool :=
  members.any fun
    | .funcDecl id _ _ _ _ => id == fn.id
    | _ => false

end Declarations

namespace Runtime

variable (rt : Runtime)

/-- `vm_index_slot`: the array that an indexing instruction works on. -/
def vmIndexArr (regs : ℕ → Value) (count : ℕ) (name : Ident) (off : Option ℕ) : Option ℕ :=
  let byName := match rt.currentField name with
    | some v => v.arr?
    | none =>
      match rt.scope.get? name with
      | some v => v.arr?
      | none => if 0 < rt.callDepth then (rt.globalTable.get? name).bind Value.arr? else none
  match off.bind fun o => if o < count then (regs o).arr? else none with
  | some a => some a
  | none => byName

/-- `vm_fn_indexable`: a function body is compiled for all its calls, so only declarations count. -/
def vmFnIndexable (fn : FuncDecl) (name : Ident) : Bool :=
  match fn.params.lookup name with
  | some t => typeIsValue t.word
  | none =>
    match arrDeclType name fn.body with
    | some t => typeIsValue t
    | none =>
      match rt.currentInstance.bind rt.instance? with
      | none => false
      | some b =>
        let members := rt.blockMembers b.defName
        blockOwnsFn fn members && ((arrDeclType name members).map typeIsValue).getD false

/-- `vm_indexable_callback`. -/
def vmIndexable (fn : Option FuncDecl) (name : Ident) (off : Option ℕ) : Bool :=
  if name = "err" then false
  else match fn with
    | some fn => !rt.poolHas name && rt.vmFnIndexable fn name
    | none =>
      match (rt.vmIndexArr rt.stack rt.stackSize name off).bind rt.arr? with
      | some a => a.cached.isPlain
      | none => false

/-- The probe for a bare name that is a field of the running method's instance. -/
def vmBareField (name : Ident) : Option (Ident × Bool) := do
  let i ← rt.currentInstance
  let b ← rt.instance? i
  if b.name = "" ∨ rt.poolHas name then none
  match blockDeclType name (rt.blockMembers b.defName) with
  | some (t, false) =>
    if (typeIsValue t || t == .str) ∧ b.fields.has name ∧ rt.resolveInstance b.name = some i then
      some (b.name, typeIsValue t)
    else none
  | _ => none

/-- The members of the Block a name stands for, as an instance or as a definition. -/
def ownerMembers (owner : Ident) : Option (List Stmt) :=
  match (rt.blockInstFind owner).bind rt.instance? with
  | some b => some (rt.blockMembers b.defName)
  | none => rt.blockDefs.lookup owner

def vmFieldIsValue (owner field : Ident) : Bool :=
  match (rt.blockInstFind owner).bind rt.instance? with
  | none => false
  | some b =>
    match blockDeclType field (rt.blockMembers b.defName) with
    | some (t, false) => typeIsValue t
    | _ => false

/-- The function a plain call in compiled code would find in the two tables. -/
def scopeFunc (name : Ident) : Option FuncDecl :=
  match rt.scope.get? name with
  | some (.func fn) => some fn
  | _ =>
    match rt.globalTable.get? name with
    | some (.func fn) => some fn
    | _ => none

def vmNeverString (owner : Option Ident) (name : Ident) : Bool :=
  match owner with
  | some owner =>
    match (rt.ownerMembers owner).bind (blockDeclType name) with
    | some (t, true) => retNeverString t
    | _ => false
  | none => ((rt.scopeFunc name).map fun fn => retNeverString fn.returnType).getD false

def isBlock (owner : Ident) : Bool := (rt.blockInstFind owner).isSome || (rt.blockDefs.lookup owner).isSome

/-- What the compiler is told, for a loop or for the body of `fn`. -/
def probe (fn : Option FuncDecl) : Probe where
  ownerFn := fn.isSome
  indexable := rt.vmIndexable fn
  bareField := rt.vmBareField
  fieldIsValue := rt.vmFieldIsValue
  neverString := rt.vmNeverString
  isBlock := rt.isBlock

end Runtime

section Inline

/-- `expr_is_inlinable`. -/
def exprIsInlinable (paramCount : ℕ) : Expr → Bool
  | .intLit _ | .floatLit _ | .boolLit _ | .stringLit _ | .memberAccess _ _ => true
  | .identifier _ ⟨some off, warm⟩ => decide (off < paramCount) && warm
  | .binary _ l r | .logic _ l r => exprIsInlinable paramCount l && exprIsInlinable paramCount r
  | _ => false

/-- `stmt_is_inlinable`. -/
def stmtIsInlinable (paramCount : ℕ) : Stmt → Bool
  | .memberAssign _ _ value => exprIsInlinable paramCount value
  | .returnStmt none => true
  | .returnStmt (some value) => exprIsInlinable paramCount value
  | .assign _ value ref => ref.off.isSome && exprIsInlinable paramCount value
  | .varDecl _ _ init _ ref => ref.off.isSome && exprIsInlinable paramCount init
  | _ => false

/-- `eval_simple_expr`, with `none` where an operation is undefined. The logical operators are in
neither of its tables. -/
def evalSimpleExpr (rt : Runtime) (params : List Value) : Expr → Option Value
  | .intLit i => some (.int i)
  | .floatLit d => some (.float d)
  | .boolLit b => some (.bool b)
  | .stringLit s => some (.str s)
  | .identifier _ ⟨some off, _⟩ => some (params.getD off .nil)
  | .memberAccess owner field => some (((rt.resolveInstance owner).bind (rt.instanceField · field)).getD .nil)
  | .binary op l r => do
      let x ← evalSimpleExpr rt params l
      let y ← evalSimpleExpr rt params r
      simpleBinaryOp op x y
  | .logic _ l r => do
      let _ ← evalSimpleExpr rt params l
      let _ ← evalSimpleExpr rt params r
      some .nil
  | _ => some .nil

/-- The second loop of `method_try_inline`; `none` is its result 0. -/
def inlineStmts (params : List Value) : List Stmt → RtProg true (Option Value)
  | [] => pure (some .nil)
  | .memberAssign owner field value :: rest => do
      let rt ← read
      match rt.resolveInstance owner with
      | none => pure none
      | some i =>
        match evalSimpleExpr rt params value with
        | none => do
            let _ ← undefined
            pure none
        | some v => do
            modify (.setField i field v)
            let rt ← read
            if rt.hadError then pure none else inlineStmts params rest
  | .returnStmt none :: _ => pure (some .nil)
  | .returnStmt (some value) :: _ => do
      let rt ← read
      match evalSimpleExpr rt params value with
      | none => do
          let _ ← undefined
          pure none
      | some v => pure (some v)
  | _ :: _ => pure none

def methodTryInline (fn : FuncDecl) (args : List Value) : RtProg true (Option Value) :=
  if fn.body.all (stmtIsInlinable fn.paramCount) then inlineStmts args fn.body else pure none

end Inline

section Builtins

def builtinIs (name : Ident) : Bool := name ∈ ["print", "len", "input", "input_int", "str_alloc"]

namespace Runtime

/-- The length `len` reports, in both tiers. -/
def lenOf? (rt : Runtime) : Value → Option ℕ
  | .str s => some s.utf8ByteSize
  | .arr a _ => some (rt.arrData a).length
  | .dyn d => some (rt.dynItems d).length
  | _ => none

end Runtime

/-- The digits `atol` reads after the sign. -/
def atolDigits : List Char → ℕ → ℕ
  | c :: rest, n => if c.isDigit then atolDigits rest (10 * n + (c.toNat - 48)) else n
  | [], n => n

/-- `atol`, which leaves a number that does not fit undefined. -/
def atol (s : String) : Option Int64 :=
  match s.toList.dropWhile Char.isWhitespace with
  | '-' :: rest => longOfInt (-(atolDigits rest 0 : ℤ))
  | '+' :: rest => longOfInt (atolDigits rest 0)
  | rest => longOfInt (atolDigits rest 0)

/-- `input_int` after the prompt. -/
def readInt {m : Bool} : RtProg m Value := do
  let rt ← read
  match rt.stdin with
  | [] => pure (.int 0)
  | line :: _ => do
      modify .readLine
      match atol line with
      | some i => pure (.int i)
      | none => undefined

/-- `builtin_dispatch_values`. Output is not modelled. -/
def builtinDispatchValues (name : Ident) (args : List Value) : RtProg true Value :=
  match name with
  | "print" => pure .nil
  | "len" =>
    match args with
    | [v] => do
        let rt ← read
        pure (.int (Int64.ofNat ((rt.lenOf? v).getD 0)))
    | _ => do
        modify (.raiseHard (.vmBuiltin name))
        pure .nil
  | "input" => do
      let rt ← read
      match rt.stdin with
      | [] => pure (.str "")
      | line :: _ => do
          modify .readLine
          pure (.str line)
  | "input_int" => readInt
  | _ => do
      modify (.raiseHard (.vmBuiltin name))
      pure .nil

end Builtins

section Callbacks

variable (env : Env)

/-- `vm_get_field_callback`. -/
def vmGetField (owner field : Ident) : RtProg true Value := do
  let rt ← read
  match rt.resolveInstance owner with
  | none => do
      modify (.raise .undefinedInstanceVm)
      pure .nil
  | some i => pure ((rt.instanceField i field).getD .nil)

/-- `vm_set_field_callback`. -/
def vmSetField (owner field : Ident) (v : Value) : RtProg true Unit := do
  let rt ← read
  match rt.resolveInstance owner with
  | none => pure ()
  | some i => modify (.setField i field v)

/-- The checks all three actions of `vm_index_callback` begin with: an array and a position in it. -/
def vmIndexPrep (regs : ℕ → Value) (count : ℕ) (name : Ident) (off : Option ℕ) (index : Value) :
    RtProg true (Option (ℕ × ℕ)) := do
  let rt ← read
  match rt.vmIndexArr regs count name off with
  | none => do
      modify (.raise (.notAnArray name))
      pure none
  | some a =>
    match index with
    | .int i =>
      if 0 ≤ i.toInt ∧ i.toInt < (rt.arrData a).length then pure (some (a, i.toInt.toNat))
      else do
        modify (.raise (.arrayIndexBounds name i.toInt (rt.arrData a).length))
        pure none
    | _ => do
        modify (.raise .arrayIndexType)
        pure none

/-- `VM_INDEX_GET`; `none` when it failed. -/
def vmIndexGet (regs : ℕ → Value) (count : ℕ) (name : Ident) (off : Option ℕ) (index : Value) :
    RtProg true (Option Value) := do
  match ← vmIndexPrep regs count name off index with
  | none => pure none
  | some (a, idx) => do
      let rt ← read
      let v := (rt.arrData a).getD idx .nil
      if v.type.isPlain then pure (some v)
      else do
        modify (.raise (.elementReadVm name idx v.type))
        pure none

/-- `VM_INDEX_SET`; `false` when it failed. -/
def vmIndexSet (regs : ℕ → Value) (count : ℕ) (name : Ident) (off : Option ℕ) (index incoming : Value) :
    RtProg true Bool := do
  match ← vmIndexPrep regs count name off index with
  | none => pure false
  | some (a, idx) => do
      let rt ← read
      let old := (rt.arrData a).getD idx .nil
      if old.type ≠ .nil ∧ old.type ≠ incoming.type then do
        modify (.raise (.elementType name idx old.type incoming.type))
        pure false
      else if !old.type.isPlain || !incoming.type.isPlain then do
        modify (.raise (.elementStoreVm name idx))
        pure false
      else do
        modify (.storeElem name a idx incoming)
        pure true

/-- `vm_eval_fallback`. -/
def vmEvalFallback (fn : FuncDecl) (inst : Option ℕ) (args : List Value) : RtProg true Value := do
  let rt ← read
  if fluxaMaxDepth ≤ rt.callDepth then do
    modify (.raise .stackOverflow)
    pure .nil
  else bracket (.fallback inst) (fun _ => rfl) ⟨fn, args, rt.stackSize, true⟩

/-- The part of `vm_call_callback` for a method. `isKey` tells a name that was turned into a method key
when the call was compiled; another one is looked up among the fields. -/
def vmCallMethod (owner method : Ident) (isKey : Bool) (args : List Value) : RtProg true Value := do
  match env.lib owner with
  | some call => do
      let r := call method args
      modify (.libReport r)
      pure r.value
  | none => do
      let rt ← read
      match rt.resolveInstance owner with
      | none => do
          modify (.raise (.undefinedInstance owner))
          pure .nil
      | some i =>
        let fn? := if isKey then rt.instanceMethod i method else
          match rt.instanceField i method with
          | some (.func fn) => some fn
          | _ => none
        match fn? with
        | none => do
            modify (.raise (.noMethodVm method))
            pure .nil
        | some fn =>
          if args.length ≠ fn.paramCount then do
            modify (.raise (.arityVmMethod method fn.paramCount args.length))
            pure .nil
          else do
            match ← methodTryInline fn args with
            | some v => pure v
            | none => vmEvalFallback fn (some i) args

namespace Runtime

/-- The function a plain call in compiled code runs. -/
def vmFunc (rt : Runtime) (name : Ident) : Option FuncDecl :=
  match rt.scope.get? name with
  | some (.func fn) => some fn
  | _ =>
    match rt.currentMethod name with
    | some fn => some fn
    | none =>
      match rt.globalTable.get? name with
      | some (.func fn) => some fn
      | _ => none

/-- The compiled body of a function, which is made on the first call and kept. -/
def fnChunk (rt : Runtime) (fn : FuncDecl) : Option Chunk :=
  match rt.fnChunks.lookup fn.id with
  | some chunk => chunk
  | none => chunkCompileFn (rt.probe (some fn)) fn

end Runtime

/-- The part of `vm_call_callback` for a plain function. -/
def vmCallFunc (name : Ident) (args : List Value) : RtProg true Value := do
  if builtinIs name then builtinDispatchValues name args
  else do
    let rt ← read
    match rt.vmFunc name with
    | none => do
        modify (.raise (.undefinedFunctionVm name))
        pure .nil
    | some fn =>
      if args.length ≠ fn.paramCount then do
        modify (.raise (.arityVm name fn.paramCount args.length))
        pure .nil
      else do
        if (rt.fnChunks.lookup fn.id).isNone then modify (.cacheChunk fn.id (rt.fnChunk fn))
        match rt.fnChunk fn with
        | some chunk =>
          bracket .vmFn (fun _ => rfl) ⟨chunk.code, 0, fun i => args.getD i .nil,
            max (chunk.nextReg + 32) (fn.paramCount + 32)⟩
        | none => vmEvalFallback fn rt.currentInstance args

end Callbacks

/-- What an instruction does, apart from calls into the runtime. -/
inductive VmEffect where
  | next
  | write (a : ℕ) (v : Value)
  | jump (target : ℕ)
  | stop
  | writeStop (a : ℕ) (v : Value)
  | ret (v : Value)

/-- One instruction of either dispatch loop, over the registers it reads. -/
def vmInstr (env : Env) (regs : ℕ → Value) (count : ℕ) : Instr → RtProg true VmEffect
  | .loadk a v => pure (.write a v)
  | .loadkStr a s => pure (.write a (.str s))
  | .move a b | .moveStr a b => pure (.write a (regs b))
  | .dropStr a => pure (.write a .nil)
  | .binary op a b c =>
    match env.vmOp op (regs b) (regs c) with
    | some v => pure (.write a v)
    | none => do
        let _ ← undefined
        pure .stop
  | .not a b => pure (.write a (.bool !(regs b).truthyNot))
  | .truthy a b => pure (.write a (.bool (regs b).truthyLogic))
  | .jumpIfFalse a target => pure (if (regs a).vmTruthy then .next else .jump target)
  | .jump target => pure (.jump target)
  | .ret => pure .stop
  | .callMethod a owner method isKey first argc => do
      let v ← vmCallMethod env owner method isKey ((List.range argc).map fun i => regs (first + i))
      pure (.write a v)
  | .callFunc a name first argc => do
      let v ← vmCallFunc name ((List.range argc).map fun i => regs (first + i))
      pure (.write a v)
  | .getField a owner field => do
      let v ← vmGetField owner field
      pure (.write a v)
  | .getFieldV a owner field => do
      let v ← vmGetField owner field
      pure (.write a (if v.type.isPlain then v else .nil))
  | .setField a owner field => do
      vmSetField owner field (regs a)
      pure .next
  | .getIndex a name index off => do
      match ← vmIndexGet regs count name off (regs index) with
      | some v => pure (.write a v)
      | none => pure (.writeStop a .nil)
  | .prepIndex off name index _ => do
      match ← vmIndexPrep regs count name off (regs index) with
      | some _ => pure .next
      | none => pure .stop
  | .setIndex a name index off => do
      if ← vmIndexSet regs count name off (regs index) (regs a) then pure .next else pure .stop
  | .retVal a => pure (.ret (regs a))
  | .retNil => pure (.ret .nil)

/-- A round of `vm_run`, whose registers are the stack. -/
def vmRun (env : Env) (j : VmState) : RtProg true (VmState ⊕ Value) := do
  let rt ← read
  match j.code[j.pc]? with
  | none => pure (.inr .nil)
  | some i => do
      match ← vmInstr env rt.stack rt.stackSize i with
      | .next => pure (.inl { j with pc := j.pc + 1 })
      | .write a v => do
          modify (.setReg a v)
          pure (.inl { j with pc := j.pc + 1 })
      | .jump target => pure (.inl { j with pc := target })
      | .stop => pure (.inr .nil)
      | .writeStop a v => do
          modify (.setReg a v)
          pure (.inr .nil)
      | .ret v => do
          modify (.setReturn v)
          pure (.inr .nil)

/-- A round of `vm_run_fn`. -/
def vmRunFn (env : Env) (j : FnState) : RtProg true (FnState ⊕ Value) := do
  match j.code[j.pc]? with
  | none => pure (.inr .nil)
  | some i => do
      match ← vmInstr env j.regs j.regCount i with
      | .next => pure (.inl { j with pc := j.pc + 1 })
      | .write a v => pure (.inl { j with pc := j.pc + 1, regs := Function.update j.regs a v })
      | .jump target => pure (.inl { j with pc := target })
      | .stop | .writeStop _ _ => pure (.inr .nil)
      | .ret v => pure (.inr v)

end Fluxa
