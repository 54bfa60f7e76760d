import Fluxa.Bytecode
import Fluxa.Operators

/-! The state of the interpreter (`runtime.h`, `prst_pool.h`, `block.c`, `err.h`) and the operations on
it that evaluate nothing: errors, variable access, the `prst` pool, instances, arrays and frames.

A table maps a name to the value last stored under it. Arrays, dyns and instances are never freed, so
what the source does with a value after its last reference is gone is not modelled; nor are the
collector, the reference counts, threads, the IPC view and the warm profile, whose three branches of
`rt_get` all return the slot the cold read of the slot returns. -/

namespace Fluxa

abbrev Table := List (Ident × Value)

namespace Table

def get? (t : Table) (name : Ident) : Option Value := t.lookup name

def has (t : Table) (name : Ident) : Bool := (t.get? name).isSome

def set (t : Table) (name : Ident) (v : Value) : Table := (name, v) :: t

@[simp] theorem get?_set_self (t : Table) (x : Ident) (v : Value) : (t.set x v).get? x = some v := by
  simp [set, get?]

theorem get?_set_of_ne (t : Table) {x y : Ident} (v : Value) (h : y ≠ x) : (t.set x v).get? y = t.get? y := by
  have hyx : (y == x) = false := by simpa using h
  simp [set, get?, List.lookup_cons, hyx]

end Table

inductive Mode where
  | script | project
  deriving DecidableEq, Repr

structure PrstEntry where
  name : Ident
  declaredType : ValType
  value : Value
  initValue : Value
  stackOffset : Option ℕ

/-- A Block instance: its fields, and its methods under keys no field can have. -/
structure Instance where
  name : Ident
  defName : Ident
  isRoot : Bool
  fields : Table
  methods : List (Ident × FuncDecl)

inductive ErrKind where
  | fluxa | cFfi | reload
  deriving DecidableEq, Repr

structure ErrEntry where
  kind : ErrKind
  error : RtError
  context : Ident

/-- A pending `return`: a value, or a tail call for the trampoline to make. -/
structure ReturnSignal where
  active : Bool
  value : Value
  tailCall : Option (FuncDecl × List Value)

def ReturnSignal.clear : ReturnSignal := ⟨false, .nil, none⟩

/-- A heap array with the element type cached when it was made. -/
structure Arr where
  data : List Value
  cached : ValType

namespace Arr

/-- `fluxa_arr_detect_type`, with `VAL_DYN` for a mixture. -/
def detectType : List Value → ValType → ValType
  | [], found => found
  | v :: rest, found =>
    if v.type = .nil then detectType rest found
    else if found = .nil then detectType rest v.type
    else if found ≠ v.type then .dyn
    else detectType rest found

def ofList (data : List Value) : Arr := ⟨data, detectType data .nil⟩

end Arr

structure Runtime where
  scope : Table
  globalTable : Table
  stack : ℕ → Value
  stackSize : ℕ
  hadError : Bool
  callDepth : ℕ
  ret : ReturnSignal
  currentInstance : Option ℕ
  dangerDepth : ℕ
  errStack : List ErrEntry
  mode : Mode
  prstPool : List PrstEntry
  dryRun : Bool
  instances : List Instance
  instanceNames : List (Ident × ℕ)
  blockDefs : List (Ident × List Stmt)
  cloneCounter : ℕ
  arrs : List Arr
  dyns : List (List Value)
  fnChunks : List (ℕ × Option Chunk)
  stdin : List String

def fluxaStackSize : ℕ := 512

def fluxaMaxDepth : ℕ := 500

def errStackCap : ℕ := 32

namespace Runtime

def start (mode : Mode) (stdin : List String) : Runtime where
  scope := []
  globalTable := []
  stack := fun _ => .nil
  stackSize := 0
  hadError := false
  callDepth := 0
  ret := .clear
  currentInstance := none
  dangerDepth := 0
  errStack := []
  mode := mode
  prstPool := []
  dryRun := false
  instances := []
  instanceNames := []
  blockDefs := []
  cloneCounter := 0
  arrs := []
  dyns := []
  fnChunks := []
  stdin := stdin

section Instances

variable (rt : Runtime)

/-- `block_inst_find`. -/
def blockInstFind (name : Ident) : Option ℕ := rt.instanceNames.lookup name

/-- `resolve_instance`: the registry first, then a variable of the frame. -/
def resolveInstance (owner : Ident) : Option ℕ :=
  match rt.blockInstFind owner with
  | some i => some i
  | none =>
    match rt.scope.get? owner with
    | some (.inst i) => some i
    | _ => none

def instance? (i : ℕ) : Option Instance := rt.instances[i]?

def instanceField (i : ℕ) (field : Ident) : Option Value :=
  (rt.instance? i).bind (·.fields.get? field)

def instanceMethod (i : ℕ) (method : Ident) : Option FuncDecl :=
  (rt.instance? i).bind (·.methods.lookup method)

def setInstanceField (i : ℕ) (field : Ident) (v : Value) : Runtime :=
  { rt with instances := rt.instances.modify i fun b => { b with fields := b.fields.set field v } }

/-- A field of the instance whose method is running. -/
def currentField (name : Ident) : Option Value := rt.currentInstance.bind (rt.instanceField · name)

/-- The instance whose method is running, if it has a field of that name. -/
def fieldOwner (name : Ident) : Option ℕ := rt.currentInstance.filter fun i => (rt.instanceField i name).isSome

def currentMethod (name : Ident) : Option FuncDecl := rt.currentInstance.bind (rt.instanceMethod · name)

def instanceName (i : Option ℕ) : Ident := ((i.bind rt.instance?).map (·.name)).getD "<global>"

end Instances

section Pool

variable (rt : Runtime)

def poolFind (name : Ident) : Option PrstEntry := rt.prstPool.find? (·.name == name)

def poolHas (name : Ident) : Bool := (rt.poolFind name).isSome

def poolUpdate (name : Ident) (f : PrstEntry → PrstEntry) : Runtime :=
  { rt with prstPool := rt.prstPool.map fun e => if e.name == name then f e else e }

end Pool

/-- `errstack_push`, newest entry first; a full ring loses its oldest entry. -/
def pushErr (rt : Runtime) (e : ErrEntry) : Runtime :=
  { rt with errStack := (e :: rt.errStack).take errStackCap }

/-- `rt_error_line`. -/
def raise (rt : Runtime) (e : RtError) : Runtime :=
  if 0 < rt.dangerDepth then rt.pushErr ⟨.fluxa, e, rt.instanceName rt.currentInstance⟩
  else { rt with hadError := true }

/-- An error reported without asking for a `danger` block. -/
def raiseHard (rt : Runtime) (_ : RtError) : Runtime := { rt with hadError := true }

/-- `rt_set`: a resolved name goes to its slot, another one to the field or the frame table. -/
def set (rt : Runtime) (ref : Ref) (name : Ident) (v : Value) : Runtime :=
  match ref.off with
  | some off =>
    { rt with stack := Function.update rt.stack off v, stackSize := max rt.stackSize (off + 1) }
  | none =>
    match rt.fieldOwner name with
    | some i => rt.setInstanceField i name v
    | none => { rt with scope := rt.scope.set name v }

/-- The slot of a resolved name, if it lies in the frame and holds something. -/
def slotValue (rt : Runtime) (off : ℕ) : Option Value :=
  if off < rt.stackSize ∧ !(rt.stack off).isNil then some (rt.stack off) else none

/-- `rt_get`, `none` where it reports an undefined variable. A warm node reads its slot and then only
the frame table; any other node that names a pooled variable inside a call does not look at its slot. -/
def lookup (rt : Runtime) (ref : Ref) (name : Ident) : Option Value :=
  if ref.warm ∧ ref.off.isSome then
    match ref.off.bind rt.slotValue with
    | some v => some v
    | none => rt.scope.get? name
  else if 0 < rt.callDepth ∧ ref.off.isSome ∧ rt.poolHas name then
    match rt.scope.get? name with
    | some v =>
      if v.isNil then some ((rt.globalTable.get? name).getD .nil) else some v
    | none => some ((rt.globalTable.get? name).getD .nil)
  else
    match ref.off.bind rt.slotValue with
    | some v => some v
    | none =>
      match rt.currentField name with
      | some v => some v
      | none =>
        match rt.scope.get? name with
        | some v => some v
        | none => if 0 < rt.callDepth then rt.globalTable.get? name else none

section Heap

variable (rt : Runtime)

def arr? (a : ℕ) : Option Arr := rt.arrs[a]?

def arrData (a : ℕ) : List Value := ((rt.arr? a).map (·.data)).getD []

def dynItems (d : ℕ) : List Value := (rt.dyns[d]?).getD []

/-- The next array gets this number. -/
def nextArr : ℕ := rt.arrs.length

def nextDyn : ℕ := rt.dyns.length

def nextInstance : ℕ := rt.instances.length

def allocArr (a : Arr) : Runtime := { rt with arrs := rt.arrs ++ [a] }

def allocDyn (items : List Value) : Runtime := { rt with dyns := rt.dyns ++ [items] }

def setElem (a idx : ℕ) (v : Value) : Runtime :=
  { rt with arrs := rt.arrs.modify a fun b => { b with data := b.data.set idx v } }

/-- `prst_value_deep_clone`; an array inside an array stays shared here. -/
def cloneValue (v : Value) : Value × Runtime :=
  match v with
  | .arr a _ =>
    match rt.arr? a with
    | some b => if b.data.isEmpty then (v, rt) else (.arr rt.nextArr true, rt.allocArr b)
    | none => (v, rt)
  | v => (v, rt)

/-- `block_inst_clone`. -/
def cloneInstance (i : ℕ) : Runtime :=
  match rt.instance? i with
  | none => rt
  | some b =>
    let copyField (acc : Runtime × Table) (f : Ident × Value) : Runtime × Table :=
      match f.2 with
      | .arr a _ =>
        if (acc.1.arrData a).isEmpty then (acc.1, acc.2 ++ [f])
        else (acc.1.allocArr (.ofList (acc.1.arrData a)), acc.2 ++ [(f.1, .arr acc.1.nextArr true)])
      | _ => (acc.1, acc.2 ++ [f])
    let (rt, fields) := b.fields.foldl copyField (rt, [])
    { rt with
      instances := rt.instances ++
        [{ b with name := s!"{b.name}_dyn{rt.cloneCounter}", isRoot := false, fields := fields }]
      cloneCounter := rt.cloneCounter + 1 }

/-- A value that a dyn takes over: arrays are copied and instances cloned. -/
def adopt (v : Value) : Value × Runtime :=
  match v with
  | .arr a _ =>
    if (rt.arrData a).isEmpty then (v, rt)
    else (.arr rt.nextArr true, rt.allocArr (.ofList (rt.arrData a)))
  | .inst i => if (rt.instance? i).isSome then (.inst rt.nextInstance, rt.cloneInstance i) else (v, rt)
  | v => (v, rt)

/-- The store of a dyn element, growing the dyn first. -/
def storeDyn (d idx : ℕ) (v : Value) : Runtime :=
  let items := rt.dynItems d
  let rt := { rt with dyns := rt.dyns.set d (items ++ List.replicate (idx + 1 - items.length) Value.nil) }
  match v with
  | .dyn _ => rt.raise .dynInDyn
  | v =>
    let (v, rt) := rt.adopt v
    { rt with dyns := rt.dyns.modify d fun items => items.set idx v }

end Heap

section PrstPool

variable (rt : Runtime)

/-- `prst_pool_set`; the flag is false when the declared type is another one. -/
def poolSet (name : Ident) (v : Value) : Runtime × Bool :=
  match rt.poolFind name with
  | some e =>
    if e.declaredType ≠ v.type then
      (rt.pushErr ⟨.reload, .prstType name e.declaredType v.type, "<prst>"⟩, false)
    else
      let (v, rt) := rt.cloneValue v
      (rt.poolUpdate name fun e => { e with value := v }, true)
  | none =>
    let (value, rt) := rt.cloneValue v
    let (initValue, rt) := rt.cloneValue v
    ({ rt with prstPool := rt.prstPool ++ [⟨name, v.type, value, initValue, none⟩] }, true)

/-- `prst_pool_set_offset`. -/
def poolSetOffset (name : Ident) (off : Option ℕ) : Runtime :=
  rt.poolUpdate name fun e => { e with stackOffset := off }

def globalSet (name : Ident) (v : Value) : Runtime := { rt with globalTable := rt.globalTable.set name v }

/-- The pool entry and the global table follow an assignment. -/
def poolStore (name : Ident) (v : Value) : Runtime := (rt.poolSet name v).1.globalSet name v

/-- After a compiled loop every pooled variable is read back from the slot of its declaration. -/
def syncPool : Runtime :=
  if rt.mode = .project then
    rt.prstPool.foldl (fun rt e =>
      match e.stackOffset with
      | some off =>
        if off < rt.stackSize ∧ (rt.stack off).type = e.declaredType then
          rt.poolStore e.name (rt.stack off)
        else rt
      | none => rt) rt
  else rt

/-- The element store of both tiers, mirrored in the pool's copy of a `prst` array. -/
def storeElem (name : Ident) (a idx : ℕ) (v : Value) : Runtime :=
  let rt := rt.setElem a idx v
  if !rt.dryRun ∧ rt.mode = .project then
    match rt.poolFind name with
    | some ⟨_, _, .arr p _, _, _⟩ => rt.setElem p idx v
    | _ => rt
  else rt

end PrstPool

section Declarations

variable (rt : Runtime)

/-- `rt_type_check`. -/
def typeOk (t : TypeName) (v : Value) : Bool :=
  match typeNameToVal t with
  | none => true
  | some expected => v.type == expected

/-- The end of `NODE_VAR_DECL`. A value whose evaluation left an error on the error stack is stored
without a check. -/
def declareVar (t : TypeName) (ref : Ref) (name : Ident) (v : Value) (errBefore : ℕ) : Runtime :=
  if errBefore < rt.errStack.length then rt.set ref name v
  else if typeOk t v then rt.set ref name v
  else rt.raise (.declaredType name t v.type)

/-- The first declaration of a `prst` variable in project mode. -/
def declarePrst (t : TypeName) (ref : Ref) (name : Ident) (v : Value) : Runtime :=
  if typeOk t v then
    let (rt, ok) := rt.poolSet name v
    if ok then ((rt.set ref name v).poolSetOffset name ref.off).globalSet name v else rt
  else rt.raise (.declaredType name t v.type)

/-- A pooled resource handle that did not survive: it is made anew. -/
def rebuildPrst (t : TypeName) (ref : Ref) (name : Ident) (v : Value) : Runtime :=
  if typeOk t v then
    let rt := rt.poolUpdate name fun e => { e with declaredType := v.type }
    (((rt.poolSet name v).1.poolSetOffset name ref.off).set ref name v).globalSet name v
  else rt.raise (.declaredType name t v.type)

/-- Whether the initialiser in the source was edited since the pooled value was declared. -/
def initChanged : Value → Value → Bool
  | .int a, .int b => a != b
  | .float a, .float b => !a.eq b
  | .bool a, .bool b => a != b
  | .str a, .str b => a != b
  | v, w => v.type != w.type

/-- The declaration of a variable the pool has: `src` is the initialiser, if it was evaluated. -/
def restorePrst (ref : Ref) (name : Ident) (e : PrstEntry) (src : Option Value) : Runtime :=
  let changed := (src.map (initChanged · e.initValue)).getD false
  let chosen := match src, changed with
    | some v, true => v
    | _, _ => match e.value with
      | .arr a _ => .arr a false
      | v => v
  let rt := (rt.poolSet name chosen).1.poolSetOffset name ref.off
  let rt := match src, changed with
    | some v, true => rt.poolUpdate name fun e => { e with initValue := v }
    | _, _ => rt
  (rt.set ref name chosen).globalSet name chosen

/-- The store of `NODE_ASSIGN`: a field of the running method's instance comes before the slot. -/
def storeAssign (name : Ident) (ref : Ref) (v : Value) : Runtime :=
  match rt.fieldOwner name with
  | some i => rt.setInstanceField i name v
  | none =>
    if ref.off.isNone ∧ !rt.scope.has name then rt.raise (.undeclaredAssign name)
    else
      let rt := rt.set ref name v
      if !rt.dryRun ∧ rt.mode = .project ∧ rt.poolHas name then rt.poolStore name v else rt

/-- The end of `NODE_ASSIGN`. The declared type plays no part: the value stored now decides, and a
variable that is not found is reported and then stored all the same. -/
def assignVar (name : Ident) (ref : Ref) (v : Value) (errBefore : ℕ) : Runtime :=
  if rt.errStack.length = errBefore then
    match rt.lookup ref name with
    | none => (rt.raise (.undefinedVariable name)).storeAssign name ref v
    | some cur =>
      if cur.type ≠ .nil ∧ cur.type ≠ v.type then rt.raise (.assignType name cur.type v.type)
      else rt.storeAssign name ref v
  else rt.storeAssign name ref v

/-- `NODE_FUNC_DECL`. -/
def declareFunc (fn : FuncDecl) : Runtime :=
  let rt := { rt with scope := rt.scope.set fn.name (.func fn) }
  if rt.callDepth = 0 then rt.globalSet fn.name (.func fn) else rt

/-- A new array becomes a field of the running method's instance, or a name of the frame. -/
def declareArr (name : Ident) (data : List Value) : Runtime :=
  let v := Value.arr rt.nextArr true
  let rt := rt.allocArr (.ofList data)
  match rt.currentInstance with
  | some i => rt.setInstanceField i name v
  | none => { rt with scope := rt.scope.set name v }

/-- A `prst` array goes to the pool, or comes back from it. -/
def persistArr (name : Ident) (a : ℕ) : Runtime :=
  if !rt.dryRun ∧ rt.mode = .project then
    match rt.poolFind name with
    | none => (rt.poolSet name (.arr a true)).1
    | some ⟨_, _, .arr p _, _, _⟩ =>
      { rt.allocArr (.ofList (rt.arrData p)) with scope := rt.scope.set name (.arr rt.nextArr true) }
    | some _ => rt
  else rt

/-- `NODE_FREE` behind the check for `prst` variables. -/
def freeVar (ref : Ref) (name : Ident) : Runtime :=
  match ref.off.bind fun off => (rt.slotValue off).map fun _ => off with
  | some off => { rt with stack := Function.update rt.stack off .nil }
  | none =>
    match rt.fieldOwner name with
    | some i => rt.setInstanceField i name .nil
    | none =>
      if rt.scope.has name then { rt with scope := rt.scope.set name .nil }
      else if 0 < rt.callDepth ∧ rt.globalTable.has name then rt.globalSet name .nil
      else rt.raise (.freeUndefined name)

end Declarations

section Frames

variable (rt : Runtime)

/-- The scalar `prst` variables, which `call_function` puts in the new frame table. -/
def prstScope : Table :=
  rt.prstPool.foldl (fun t e =>
    match e.value with
    | .int _ | .float _ | .bool _ | .str _ => t.set e.name e.value
    | _ => t) []

/-- The frame of a call before its parameters are bound. -/
def enterFrame (inst : Option ℕ) (withPrst : Bool) : Runtime :=
  { rt with
    scope := if withPrst ∧ rt.mode = .project then rt.prstScope else []
    stackSize := 0
    currentInstance := inst
    callDepth := rt.callDepth + 1 }

/-- The caller's frame over what the call left; slots above the caller's own keep what they hold. -/
def leaveFrame (caller : Runtime) : Runtime :=
  { rt with
    scope := caller.scope
    stackSize := caller.stackSize
    currentInstance := caller.currentInstance
    stack := fun i => if i < min caller.stackSize fluxaStackSize then caller.stack i else rt.stack i
    callDepth := caller.callDepth }

/-- The slots a round of the trampoline clears. -/
def zeroCount (params callerSize : ℕ) : ℕ := min (max (params + 64) (callerSize + 1)) fluxaStackSize

/-- The start of a body: slots are cleared, parameters bound and the function's own name entered. -/
def startBody (fn : FuncDecl) (args : List Value) (callerSize : ℕ) : Runtime :=
  { rt with
    stack := fun i => match args[i]? with
      | some v => v
      | none => if i < zeroCount args.length callerSize then .nil else rt.stack i
    stackSize := max rt.stackSize args.length
    scope := rt.scope.set fn.name (.func fn)
    ret := .clear }

/-- `frame_release_slots_from`: strings and arrays go, anything else stays behind. -/
def releaseSlots (start : ℕ) : Runtime :=
  { rt with
    stack := fun i =>
      if start ≤ i ∧ i < rt.stackSize ∧ ((rt.stack i).type = .string ∨ (rt.stack i).type = .arr) then .nil
      else rt.stack i }

/-- A tail call takes the frame over. -/
def reuseFrame (start : ℕ) : Runtime :=
  { rt.releaseSlots start with
    scope := []
    stackSize := 0
    ret := { rt.ret with tailCall := none } }

/-- A compiled loop claims its registers and clears the temporaries. -/
def enterVm (nextReg maxSlot : ℕ) : Runtime :=
  { rt with
    stackSize := max (max rt.stackSize nextReg) maxSlot
    stack := fun i => if firstTemp ≤ i ∧ i < nextReg then .nil else rt.stack i }

def setReg (a : ℕ) (v : Value) : Runtime := { rt with stack := Function.update rt.stack a v }

end Frames

section Blocks

variable (rt : Runtime)

/-- `block_def_register`, and the start of `block_inst_create`: an older instance loses its name. -/
def registerDef (name : Ident) (members : List Stmt) : Runtime :=
  { rt with blockDefs := (name, members) :: rt.blockDefs }

def newInstance (name defName : Ident) (isRoot : Bool) : Runtime :=
  { rt with
    instanceNames := rt.instanceNames.filter (·.1 != name)
    instances := rt.instances ++ [⟨name, defName, isRoot, [], []⟩] }

def addMethod (i : ℕ) (fn : FuncDecl) : Runtime :=
  { rt with instances := rt.instances.modify i fun b => { b with methods := (fn.name, fn) :: b.methods } }

/-- The end of `block_inst_create` and the store of the instance under its name. -/
def registerInstance (name : Ident) (i : ℕ) : Runtime :=
  { rt with
    instanceNames := (name, i) :: rt.instanceNames
    scope := rt.scope.set name (.inst i) }

def blockMembers (defName : Ident) : List Stmt := (rt.blockDefs.lookup defName).getD []

end Blocks

end Runtime

namespace Value

/-- `val_arr_ref`: an array argument is a view of the caller's array. -/
def arrRef : Value → Value
  | arr a _ => arr a false
  | v => v

end Value

end Fluxa
