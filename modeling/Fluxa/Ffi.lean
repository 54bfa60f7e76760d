import Mathlib.Data.List.TakeWhile
import Fluxa.StdLib
import Fluxa.Value

/-! Calls of C functions (`ffi.c`, `NODE_FFI_CALL` of `runtime.c`). The arguments are copied into cells that the C function
can store to. After the call the cells are copied back into the arguments, and the arguments that are variables are stored
again.

A value is its tag and the first eight bytes of its union; the text of a string comes with its address, since strings are
never changed in place. Reference counts and memory exhaustion are left out. -/

namespace Fluxa.Ffi

open StdLib

section Values

abbrev Word := BitVec 64

abbrev CString := { t : Bytes // 0 ∉ t }

/-- `Value`. A `pointer` is a value of one of the other types, or a string or an array whose pointer was changed. -/
inductive RawValue where
  | nil
  | int (n : Word)
  | float (bits : Word)
  | bool (b : BitVec 32)
  | string (addr : Word) (text : CString)
  | arr (data : Word)
  | pointer (type : ValType) (addr : Word)
  deriving DecidableEq

namespace RawValue

def type : RawValue → ValType
  | nil => .nil
  | int _ => .int
  | float _ => .float
  | bool _ => .bool
  | string _ _ => .string
  | arr _ => .arr
  | pointer type _ => type

/-- The union as a number. Half of it belongs to a `bool`, nothing to `nil`. -/
def word : RawValue → Word
  | nil => 0
  | int n => n
  | float bits => bits
  | bool b => b.setWidth 64
  | string addr _ => addr
  | arr data => data
  | pointer _ addr => addr

def setWord (w : Word) : RawValue → RawValue
  | nil => nil
  | int _ => int w
  | float _ => float w
  | bool _ => bool (w.setWidth 32)
  | string addr text => if w = addr then string addr text else pointer .string w
  | arr data => if w = data then arr data else pointer .arr w
  | pointer type _ => pointer type w

/-- The pointer to a new string is stored into the union. -/
def setString (addr : Word) (text : CString) : RawValue → RawValue
  | string _ _ => string addr text
  | v => v.setWord addr

/-- What `as.string` points to: nothing for a null pointer, and `none` where the source reads memory that holds no string. -/
def chars : RawValue → Option Bytes
  | string _ text => some text
  | nil | bool _ => none
  | v => if v.word = 0 then some [] else none

def byte : RawValue → UInt8
  | int n => .ofBitVec (n.setWidth 8)
  | bool b => .ofBitVec (b.setWidth 8)
  | _ => 0

/-- What a program sees of a value: not where a string is stored. -/
def shown : RawValue → RawValue
  | string _ text => string 0 text
  | v => v

end RawValue

end Values

section Variables

structure Var where
  ref : Ref
  name : Ident
  deriving DecidableEq

/-- What `rt_get` and `rt_set` see of the runtime. -/
structure State where
  stack : ℕ → RawValue
  stackSize : ℕ
  scope : Ident → Option RawValue
  fields : Ident → Option RawValue
  globals : Ident → Option RawValue
  pool : Ident → Option RawValue
  shared : Bool
  callDepth : ℕ
  arrays : Word → List RawValue
  dyns : Word → List RawValue

namespace State

variable (st : State)

def slotValue (off : ℕ) : Option RawValue :=
  if off < st.stackSize ∧ st.stack off ≠ .nil then some (st.stack off) else none

/-- `rt_get`, `none` where it reports an undefined variable. -/
def rtGet (x : Var) : Option RawValue :=
  if x.ref.warm ∧ x.ref.off.isSome then (x.ref.off.bind st.slotValue).or (st.scope x.name)
  else if st.shared ∧ (st.pool x.name).isSome then st.pool x.name
  else if 0 < st.callDepth ∧ x.ref.off.isSome ∧ (st.pool x.name).isSome then
    some ((((st.scope x.name).filter (· ≠ .nil)).or (st.globals x.name)).getD .nil)
  else
    (x.ref.off.bind st.slotValue).or <| (st.fields x.name).or <| (st.scope x.name).or <|
      if 0 < st.callDepth then st.globals x.name else none

def setSlot (off : ℕ) (v : RawValue) : State :=
  { st with stack := Function.update st.stack off v, stackSize := max st.stackSize (off + 1) }

/-- `rt_set`. -/
def rtSet (x : Var) (v : RawValue) : State :=
  match x.ref.off with
  | some off => st.setSlot off v
  | none =>
    if (st.fields x.name).isSome then { st with fields := Function.update st.fields x.name (some v) }
    else { st with scope := Function.update st.scope x.name (some v) }

end State

end Variables

section Calls

/-- `FParamKind`. -/
inductive ParamKind where
  | value | ptrInt | ptrFlt | ptrBool | str | arr | dyn
  deriving DecidableEq

/-- `c_type_to_kind`. -/
def cTypeToKind (cType : String) : ParamKind :=
  if cType = "int*" ∨ cType = "long*" ∨ cType = "int32_t*" ∨ cType = "int64_t*" then .ptrInt
  else if cType = "double*" ∨ cType = "float*" then .ptrFlt
  else if cType = "bool*" then .ptrBool
  else if cType = "char*" ∨ cType = "const char*" then .str
  else if cType = "uint8_t*" ∨ cType = "arr" then .arr
  else if cType = "void*" ∨ cType = "dyn" ∨ '*' ∈ cType.toList then .dyn
  else .value

/-- The kinds whose arguments are stored back into variables. Bytes of arrays are stored in place. -/
def ParamKind.writes : ParamKind → Bool
  | ptrInt | ptrFlt | ptrBool | str => true
  | value | arr | dyn => false

/-- An argument: the variable if the node is an identifier, its value, and the address of the string that the write-back of
a `char*` argument makes. -/
structure Arg where
  node : Option Var
  value : RawValue
  fresh : { a : Word // a ≠ 0 }

/-- Arguments beyond the signature are passed by value, as are all without a signature. -/
def withKinds : List ParamKind → List Arg → List (ParamKind × Arg)
  | _, [] => []
  | [], a :: args => (.value, a) :: withKinds [] args
  | k :: kinds, a :: args => (k, a) :: withKinds kinds args

/-- The parameter types of a signature, if the function has one. -/
abbrev Sig := Option (List String)

def Sig.kinds (sig : Sig) : List ParamKind := (sig.getD []).map cTypeToKind

/-- What the C function gets: a value, or the storage that a pointer points to. -/
inductive Cell where
  | value (v : RawValue)
  | int32 (n : BitVec 32)
  | double (bits : Word)
  | bool32 (b : BitVec 32)
  | chars (buf : Bytes)
  | bytes (buf : List UInt8)
  | pointer (addr : Word)

inductive FfiError where
  | tooMany | noSymbol | unsupported
  deriving DecidableEq

/-- Why the C function is not called: an error was pushed, or the source reads memory that holds no string. -/
inductive Stop where
  | error (e : FfiError)
  | undefined

/-- `[ffi] str_buf_size`, kept within bounds. -/
def strBufSize (configured : ℤ) : ℕ :=
  if configured < 64 then 1024 else if 65536 < configured then 65536 else configured.toNat

/-- The pointer that a `dyn` holds. -/
def dynPointer (st : State) : RawValue → Word
  | .pointer .dyn d =>
    match (st.dyns d).head? with
    | some (.pointer .ptr p) => p
    | _ => 0
  | .pointer .ptr p => p
  | _ => 0

variable (size : ℕ) (st : State)

def marshal : ParamKind → RawValue → Except Stop Cell
  | .value, v =>
    match v.type with
    | .int | .float | .bool | .string => .ok (.value v)
    | _ => .error (.error .unsupported)
  | .ptrInt, v => .ok (.int32 (v.word.setWidth 32))
  | .ptrFlt, v => .ok (.double v.word)
  | .ptrBool, v => .ok (.bool32 (v.word.setWidth 32))
  | .str, v =>
    match v.chars with
    | some text => .ok (.chars (text.take (size - 1) ++ [0]))
    | none => .error .undefined
  | .arr, v =>
    match v with
    | .arr data =>
      if data ≠ 0 ∧ st.arrays data ≠ [] then .ok (.bytes ((st.arrays data).map (·.byte))) else .ok (.pointer 0)
    | _ => .ok (.pointer 0)
  | .dyn, v => .ok (.pointer (dynPointer st v))

def marshalAll : List (ParamKind × Arg) → Except Stop (List Cell)
  | [] => .ok []
  | p :: args => do
      let cell ← marshal size st p.1 p.2.value
      let cells ← marshalAll args
      return cell :: cells

/-- The text in a buffer, whose last byte is set to zero. -/
def bufferText (buf : Bytes) : CString :=
  ⟨cString (buf.take (size - 1)), fun h => absurd (List.mem_takeWhile_imp h) (by decide)⟩

def writeBack (fresh : Word) : ParamKind → Cell → RawValue → RawValue
  | .ptrInt, .int32 n, v => v.setWord (n.signExtend 64)
  | .ptrFlt, .double bits, v => v.setWord bits
  | .ptrBool, .bool32 b, v => v.setWord (v.word.extractLsb' 32 32 ++ b)
  | .str, .chars buf, v => v.setString fresh (bufferText size buf)
  | _, _, v => v

/-- The bytes of a buffer become the elements of the array. -/
def scatter (arrays : Word → List RawValue) : Cell → RawValue → Word → List RawValue
  | .bytes buf, .arr data =>
    let n := min buf.length (arrays data).length
    Function.update arrays data ((buf.take n).map (fun b => .int (b.toBitVec.setWidth 64)) ++ (arrays data).drop n)
  | _, _ => arrays

structure Returned where
  args : List (ParamKind × Arg)
  arrays : Word → List RawValue

/-- The kinds and arguments with the cells they were copied into. -/
def collect (cells : List ((ParamKind × Arg) × Cell)) : Returned where
  args := cells.map fun c => (c.1.1, { c.1.2 with value := writeBack size c.1.2.fresh c.1.1 c.2 c.1.2.value })
  arrays := cells.foldl (fun arrays c => scatter arrays c.2 c.1.2.value) st.arrays

/-- `fluxa_ffi_call`, for a library that has the symbol or not; `f` is what the C function stores into the cells. -/
def fluxaFfiCall (f : List Cell → List Cell) (found : Bool) (args : List (ParamKind × Arg)) : Except Stop Returned := do
  if 32 < args.length then throw (.error .tooMany)
  if !found then throw (.error .noSymbol)
  let cells ← marshalAll size st args
  return collect size st (args.zip (f cells))

def writeVars : List (ParamKind × Arg) → State → State
  | [], st => st
  | (k, a) :: args, st =>
    match a.node with
    | some x => writeVars args (if k.writes then st.rtSet x a.value else st)
    | none => writeVars args st

/-- `NODE_FFI_CALL` once its arguments are evaluated: the state after it, `none` where its behaviour is undefined. A call
that was refused writes the arguments back as well. -/
def ffiCall (f : List Cell → List Cell) (found : Bool) (configured : ℤ) (sig : Sig) (args : List Arg) : Option State :=
  match fluxaFfiCall (strBufSize configured) st f found (withKinds sig.kinds args) with
  | .ok r => some (writeVars r.args { st with arrays := r.arrays })
  | .error (.error _) => some (writeVars (withKinds sig.kinds args) st)
  | .error .undefined => none

end Calls

end Fluxa.Ffi
