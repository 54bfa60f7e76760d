import Fluxa.Ast

/-! Run-time values (`scope.h`) and the errors the runtime reports. Arrays, dyns and Block instances are
reached through a store, so that two values can name the same one, as two pointers do. -/

namespace Fluxa

open Binary64 (Double)

/-- The tags of `ValType`, in the order of the enumeration. -/
inductive ValType where
  | nil | int | float | bool | string | func | blockInst | arr | errStack | dyn | ptr
  deriving DecidableEq, Repr

namespace ValType

def name : ValType → String
  | int => "int" | float => "float" | bool => "bool" | string => "str" | func => "fn"
  | blockInst => "Block" | arr => "arr" | errStack => "err" | dyn => "dyn" | ptr => "ptr" | nil => "nil"

def index : ValType → ℕ
  | nil => 0 | int => 1 | float => 2 | bool => 3 | string => 4 | func => 5
  | blockInst => 6 | arr => 7 | errStack => 8 | dyn => 9 | ptr => 10

/-- The tags up to `VAL_BOOL`: the values that own no heap data. -/
def isPlain : ValType → Bool
  | nil | int | float | bool => true
  | _ => false

end ValType

inductive Value where
  | nil
  | int (i : Int64)
  | float (d : Double)
  | bool (b : Bool)
  | str (s : String)
  | func (fn : FuncDecl)
  | inst (i : ℕ)
  | arr (a : ℕ) (owned : Bool)
  | errStack
  | dyn (d : ℕ)
  | ptr (p : ℕ)

namespace Value

def type : Value → ValType
  | nil => .nil | int _ => .int | float _ => .float | bool _ => .bool | str _ => .string
  | func _ => .func | inst _ => .blockInst | arr _ _ => .arr | errStack => .errStack
  | dyn _ => .dyn | ptr _ => .ptr

def isNil : Value → Bool
  | nil => true
  | _ => false

def int? : Value → Option Int64
  | int i => some i
  | _ => none

@[simp] theorem isNil_eq_false (v : Value) : v.isNil = false ↔ v ≠ nil := by cases v <;> simp [isNil]

theorem type_eq_nil (v : Value) : v.type = .nil ↔ v = nil := by cases v <;> simp [type]

end Value

theorem mem_modify {α : Type} {l : List α} {i : ℕ} {f : α → α} {a : α} (h : a ∈ l.modify i f) :
    a ∈ l ∨ ∃ x, l[i]? = some x ∧ a = f x := by
  obtain ⟨k, hk, rfl⟩ := List.getElem_of_mem h
  rw [List.length_modify] at hk
  rw [List.getElem_modify]
  split
  next hik => exact .inr ⟨l[k], by rw [hik]; exact List.getElem?_eq_getElem hk, rfl⟩
  next => exact .inl (List.getElem_mem hk)

/-- The type a declaration asks for; `none` for the words that constrain nothing. -/
def typeNameToVal : TypeName → Option ValType
  | .int => some .int
  | .float => some .float
  | .bool => some .bool
  | .str => some .string
  | _ => none

/-- The errors of the evaluator and of the callbacks of the VM. -/
inductive RtError where
  | undefinedVariable (name : Ident)
  | declaredType (name : Ident) (declared : TypeName) (got : ValType)
  | assignType (name : Ident) (current got : ValType)
  | undeclaredAssign (name : Ident)
  | nonNumeric (got : ValType) (op : BinOp)
  | divisionByZero
  | moduloOperands
  | moduloByZero
  | stackOverflow
  | arity (name : Ident) (expected got : ℕ)
  | arityTail (name : Ident) (expected got : ℕ)
  | arityVm (name : Ident) (expected got : ℕ)
  | arityVmMethod (name : Ident) (expected got : ℕ)
  | undefinedFunction (name : Ident)
  | undefinedFunctionVm (name : Ident)
  | notAFunction (name : Ident)
  | undefinedInstance (name : Ident)
  | undefinedInstanceVm
  | undefinedOwner (name : Ident)
  | ffiOutsideDanger (lib symbol : Ident)
  | libNotEnabled (name : Ident)
  | libNotDeclared (name : Ident)
  | noMember (owner field : Ident)
  | noMethod (owner method : Ident)
  | noMethodVm (method : Ident)
  | notAnArrayOrDyn (name : Ident)
  | notAnArray (name : Ident)
  | arrayIndexType
  | arrayIndexBounds (name : Ident) (index : Int) (size : ℕ)
  | elementType (name : Ident) (index : Int) (current got : ValType)
  | elementReadVm (name : Ident) (index : Int) (got : ValType)
  | elementStoreVm (name : Ident) (index : Int)
  | arrDefaultType (declared : TypeName) (got : ValType)
  | arrElementType (declared : TypeName) (index : ℕ) (got : ValType)
  | arrCopySize (source dest : ℕ)
  | errIndexType
  | notADyn (name : Ident)
  | dynIndexType
  | dynIndexNegative
  | dynIndexBounds (name : Ident) (index : Int) (count : ℕ)
  | dynInDyn
  | notAnInstanceAt (name : Ident) (index : Int)
  | noMemberAt (name : Ident) (index : Int) (field : Ident)
  | noMethodAt (name : Ident) (index : Int) (method : Ident)
  | forUndefined (name : Ident)
  | notIterable (name : Ident)
  | freeUndefined (name : Ident)
  | freePrst (name : Ident)
  | typeofInstance (origin : Ident)
  | typeofUndefined (origin : Ident)
  | lenArity
  | lenType (got : ValType)
  | strAllocArity
  | strAllocType
  | vmBuiltin (name : Ident)
  | library (text : String)
  | prstType (name : Ident) (declared got : ValType)

namespace RtError

/-- The libraries the runtime names in its hint about a missing entry of `fluxa.toml`. -/
def hintedLibs : List Ident := ["math", "csv", "json", "strings", "time", "ft", "flxthread"]

def message : RtError → String
  | undefinedVariable x => s!"undefined variable: {x}"
  | declaredType x t v => s!"type error: '{x}' declared as {t.text} but assigned {v.name}"
  | assignType x c v => s!"type error: '{x}' is {c.name}, cannot assign {v.name}"
  | undeclaredAssign x => s!"assignment to undeclared variable: {x}"
  | nonNumeric v op => s!"arithmetic on non-numeric value (got {v.name} for '{op.text}')"
  | divisionByZero => "division by zero"
  | moduloOperands => "modulo requires integer operands"
  | moduloByZero => "modulo by zero"
  | stackOverflow => "stack overflow — max call depth reached"
  | arity f n k => s!"function '{f}' expects {n} argument(s), got {k}"
  | arityTail f n k => s!"function '{f}' expects {n} argument(s), got {k} (tail call)"
  | arityVm f n k => s!"function '{f}' expects {n} arg(s), got {k}"
  | arityVmMethod f n k => s!"Block method '{f}' expects {n} arg(s), got {k}"
  | undefinedFunction f => s!"undefined function: {f}"
  | undefinedFunctionVm f => s!"undefined function '{f}' (OP_CALL_FUNC)"
  | notAFunction f => s!"'{f}' is not a function"
  | undefinedInstance b => s!"undefined Block instance: {b}"
  | undefinedInstanceVm => "undefined Block instance (OP_GET_FIELD)"
  | undefinedOwner b => s!"undefined identifier '{b}' — if this is a C library " ++
      s!"add it under [ffi] in fluxa.toml: {b} = \"auto\""
  | ffiOutsideDanger b f => s!"FFI call to '{b}.{f}' must be inside danger block"
  | libNotEnabled b => s!"'{b}' is not enabled — add 'std.{b} = \"1.0\"' " ++
      s!"under [libs] in fluxa.toml and 'import std {b}' at the top of your file."
  | libNotDeclared b => s!"import std {b}: library not declared in [libs] of fluxa.toml." ++
      s!" Add std.{b} = 1.0 to [libs] in fluxa.toml to enable it."
  | noMember b f => s!"'{b}' has no member '{f}'"
  | noMethod b f => s!"'{b}' has no method '{f}'"
  | noMethodVm f => s!"block has no method '{f}'"
  | notAnArrayOrDyn x => s!"'{x}' is not an array or dyn"
  | notAnArray x => s!"'{x}' is not an array"
  | arrayIndexType => "array index must be an integer"
  | arrayIndexBounds x i n => s!"array index out of bounds: {x}[{i}] (size {n})"
  | elementType x i c v => s!"type error: {x}[{i}] is {c.name}, cannot assign {v.name}"
  | elementReadVm x i v => s!"{x}[{i}] holds {v.name}, which the compiled path does not carry"
  | elementStoreVm x i => s!"{x}[{i}]: the compiled path stores only int, float and bool"
  | arrDefaultType t v => s!"arr type error: declared as {t.text} arr but element is {v.name}"
  | arrElementType t i v => s!"arr type error: declared as {t.text} arr but element[{i}] is {v.name}"
  | arrCopySize n k => s!"arr copy: source size {n} is larger than destination size {k}" ++
      " — destination must be >= source size"
  | errIndexType => "err index must be an integer"
  | notADyn x => s!"'{x}' is not a dyn"
  | dynIndexType => "dyn index must be int"
  | dynIndexNegative => "dyn index cannot be negative"
  | dynIndexBounds x i n => s!"dyn index out of bounds: {x}[{i}] (count {n})"
  | dynInDyn => "dyn cannot contain dyn — use Block to compose dynamic structures"
  | notAnInstanceAt x i => s!"{x}[{i}] is not a Block instance"
  | noMemberAt x i f => s!"{x}[{i}] has no member '{f}'"
  | noMethodAt x i f => s!"{x}[{i}] has no method '{f}'"
  | forUndefined x => s!"for: undefined variable '{x}'"
  | notIterable x => s!"'{x}' is not iterable — for..in requires arr or dyn"
  | freeUndefined x => s!"free(): undefined variable '{x}'"
  | freePrst x => s!"cannot free prst variable '{x}' — prst vars are managed by the runtime." ++
      " Remove the prst declaration to allow manual free."
  | typeofInstance b => s!"typeof: '{b}' is a Block instance -- only Block definitions " ++
      "can be used as typeof origin, not instances"
  | typeofUndefined b => s!"typeof: undefined Block '{b}'"
  | lenArity => "len() expects exactly 1 argument"
  | lenType .int => "len() called on non-iterable value (got int)"
  | lenType .float => "len() called on non-iterable value (got float)"
  | lenType .bool => "len() called on non-iterable value (got bool)"
  | lenType _ => "len() called on non-iterable value (got unknown)"
  | strAllocArity => "str_alloc() expects exactly 1 argument"
  | strAllocType => "str_alloc() argument must be a positive int"
  | vmBuiltin _ => ""
  | library text => text
  | prstType x d v => s!"prst collision: '{x}' was type {d.index}, reload attempts type {v.index}" ++
      " — state preserved"

end RtError

end Fluxa
