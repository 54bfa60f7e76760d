import Fluxa.Base.Binary64

/-! The syntax tree the parser builds and the resolver annotates. Statements and expressions are kept
apart: the parser puts a statement node in no expression position, and the only expressions it makes a
statement of are the three kinds of call. Line numbers and source ids only feed diagnostics and are
left out. -/

namespace Fluxa

open Binary64 (Double)

abbrev Ident := String

/-- The type words of a declaration. -/
inductive TypeName where
  | int | float | str | bool | char | dyn | arr | nil
  deriving DecidableEq, Repr

namespace TypeName

def text : TypeName → String
  | int => "int" | float => "float" | str => "str" | bool => "bool"
  | char => "char" | dyn => "dyn" | arr => "arr" | nil => "nil"

end TypeName

/-- A parameter's type: a type word, or a type word followed by `arr`. -/
structure ParamType where
  word : TypeName
  isArr : Bool := false
  deriving DecidableEq, Repr

/-- The operators that evaluate both operands. -/
inductive BinOp where
  | add | sub | mul | div | mod | lt | gt | le | ge | eq | ne
  deriving DecidableEq, Repr

/-- The operators that may leave the right operand alone: `&&` and `||`. -/
inductive LogicOp where
  | and | or
  deriving DecidableEq, Repr

namespace BinOp

def text : BinOp → String
  | add => "+" | sub => "-" | mul => "*" | div => "/" | mod => "%"
  | lt => "<" | gt => ">" | le => "<=" | ge => ">=" | eq => "==" | ne => "!="

end BinOp

/-- What the resolver writes on a node: `resolved_offset`, with `none` for `-1`, and `warm_local`. -/
structure Ref where
  off : Option ℕ := none
  warm : Bool := false
  deriving DecidableEq, Repr

inductive Expr where
  | intLit (i : Int64)
  | floatLit (d : Double)
  | boolLit (b : Bool)
  | stringLit (s : String)
  | identifier (name : Ident) (ref : Ref)
  | binary (op : BinOp) (left right : Expr)
  | logic (op : LogicOp) (left right : Expr)
  | not (e : Expr)
  | funcCall (name : Ident) (args : List Expr)
  | memberAccess (owner field : Ident)
  | memberCall (owner method : Ident) (args : List Expr)
  | arrAccess (name : Ident) (ref : Ref) (index : Expr)
  | dynLit (elements : List Expr)
  | indexedMemberAccess (name : Ident) (ref : Ref) (index : Expr) (field : Ident)
  | indexedMemberCall (name : Ident) (ref : Ref) (index : Expr) (method : Ident) (args : List Expr)

def Expr.isVariable : Expr → Bool
  | .identifier _ _ => true
  | _ => false

/-- Induction over an expression and the lists of expressions in it. -/
@[induction_eliminator]
theorem Expr.induct {P : Expr → Prop} (intLit : ∀ i, P (.intLit i)) (floatLit : ∀ d, P (.floatLit d))
    (boolLit : ∀ b, P (.boolLit b)) (stringLit : ∀ s, P (.stringLit s))
    (identifier : ∀ name ref, P (.identifier name ref))
    (binary : ∀ op left right, P left → P right → P (.binary op left right))
    (logic : ∀ op left right, P left → P right → P (.logic op left right)) (not : ∀ e, P e → P (.not e))
    (funcCall : ∀ name args, (∀ e ∈ args, P e) → P (.funcCall name args))
    (memberAccess : ∀ owner field, P (.memberAccess owner field))
    (memberCall : ∀ owner method args, (∀ e ∈ args, P e) → P (.memberCall owner method args))
    (arrAccess : ∀ name ref index, P index → P (.arrAccess name ref index))
    (dynLit : ∀ elements, (∀ e ∈ elements, P e) → P (.dynLit elements))
    (indexedMemberAccess : ∀ name ref index field, P index → P (.indexedMemberAccess name ref index field))
    (indexedMemberCall : ∀ name ref index method args, P index → (∀ e ∈ args, P e) →
      P (.indexedMemberCall name ref index method args)) (e : Expr) : P e := by
  refine @Expr.rec P (fun es => ∀ e ∈ es, P e) intLit floatLit boolLit stringLit identifier
    (fun op l r => binary op l r) (fun op l r => logic op l r) (fun e => not e)
    (fun name args => funcCall name args) memberAccess (fun owner method args => memberCall owner method args)
    (fun name ref index => arrAccess name ref index) (fun elements => dynLit elements)
    (fun name ref index field => indexedMemberAccess name ref index field)
    (fun name ref index method args => indexedMemberCall name ref index method args) (by simp) ?_ e
  intro e es he hes
  simpa using ⟨he, hes⟩

/-- The initialiser of an array: one default for every element, or the list of elements. -/
inductive ArrInit where
  | default (e : Expr)
  | elements (es : List Expr)

/-- `funcDecl` carries the identity of its node, under which its compiled body is cached. The members
of a Block are `varDecl`, `arrDecl` and `funcDecl` statements. -/
inductive Stmt where
  | varDecl (type : TypeName) (name : Ident) (init : Expr) (persistent : Bool) (ref : Ref)
  | assign (name : Ident) (value : Expr) (ref : Ref)
  | ifStmt (condition : Expr) (thenBody : List Stmt) (elseBody : Option (List Stmt))
  | whileStmt (condition : Expr) (body : List Stmt)
  | forStmt (var : Ident) (ref : Ref) (arr : Ident) (arrRef : Ref) (body : List Stmt)
  | arrDecl (type : TypeName) (name : Ident) (size : ℕ) (init : ArrInit) (persistent : Bool)
  | arrAssign (name : Ident) (ref : Ref) (index value : Expr)
  | funcDecl (id : ℕ) (name : Ident) (params : List (Ident × ParamType)) (returnType : TypeName)
      (body : List Stmt)
  | returnStmt (value : Option Expr)
  | blockDecl (name : Ident) (members : List Stmt)
  | typeofInst (inst origin : Ident)
  | memberAssign (owner field : Ident) (value : Expr)
  | danger (body : List Stmt)
  | free (name : Ident) (ref : Ref)
  | importStd (lib : Ident)
  | exprStmt (call : Expr)

/-- Induction over a statement and the statements in it. -/
@[induction_eliminator]
theorem Stmt.induct {P : Stmt → Prop}
    (varDecl : ∀ type name init persistent ref, P (.varDecl type name init persistent ref))
    (assign : ∀ name value ref, P (.assign name value ref))
    (ifStmt : ∀ condition thenBody elseBody, (∀ s ∈ thenBody, P s) → (∀ b ∈ elseBody, ∀ s ∈ b, P s) →
      P (.ifStmt condition thenBody elseBody))
    (whileStmt : ∀ condition body, (∀ s ∈ body, P s) → P (.whileStmt condition body))
    (forStmt : ∀ var ref arr arrRef body, (∀ s ∈ body, P s) → P (.forStmt var ref arr arrRef body))
    (arrDecl : ∀ type name size init persistent, P (.arrDecl type name size init persistent))
    (arrAssign : ∀ name ref index value, P (.arrAssign name ref index value))
    (funcDecl : ∀ id name params returnType body, (∀ s ∈ body, P s) →
      P (.funcDecl id name params returnType body))
    (returnStmt : ∀ value, P (.returnStmt value))
    (blockDecl : ∀ name members, (∀ s ∈ members, P s) → P (.blockDecl name members))
    (typeofInst : ∀ inst origin, P (.typeofInst inst origin))
    (memberAssign : ∀ owner field value, P (.memberAssign owner field value))
    (danger : ∀ body, (∀ s ∈ body, P s) → P (.danger body)) (free : ∀ name ref, P (.free name ref))
    (importStd : ∀ lib, P (.importStd lib)) (exprStmt : ∀ call, P (.exprStmt call)) (s : Stmt) : P s := by
  refine @Stmt.rec P (fun b => ∀ s ∈ b, P s) (fun b => ∀ body ∈ b, ∀ s ∈ body, P s) varDecl assign
    (fun condition thenBody elseBody => ifStmt condition thenBody elseBody)
    (fun condition body => whileStmt condition body)
    (fun var ref arr arrRef body => forStmt var ref arr arrRef body) arrDecl arrAssign
    (fun id name params returnType body => funcDecl id name params returnType body) returnStmt
    (fun name members => blockDecl name members) typeofInst memberAssign (fun body => danger body) free
    importStd exprStmt (by simp) ?_ (by simp) ?_ s
  · intro s b hs hb
    simpa using ⟨hs, hb⟩
  · intro b hb
    simpa using hb

/-- A `funcDecl` node as a value. -/
structure FuncDecl where
  id : ℕ
  name : Ident
  params : List (Ident × ParamType)
  returnType : TypeName
  body : List Stmt

namespace FuncDecl

def paramCount (fn : FuncDecl) : ℕ := fn.params.length

end FuncDecl

end Fluxa
