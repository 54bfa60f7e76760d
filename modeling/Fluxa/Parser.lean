import Fluxa.Base.Asking
import Fluxa.Base.Written
import Fluxa.Token

/-! The parser (`parser.c`): one pass from tokens to the syntax tree. How a name is spelled in the tree is left open, since
a module is parsed under a namespace and some of its names get a prefix on the way. Every place where the source puts a
name that it may change is an occurrence, with what stands around it: the declarations the parser has added to its list
before it, and whether a function body is being parsed. The `scope` beside it is not in the source: the names that the
function or Block around the place declares. Parsing stops at the first error. Line numbers are left out, and so is the
node of `import c`. -/

namespace Fluxa

open Binary64 (Double)

/-- The places of a name in the tree: references, references into a module, and declarations. An `owner` stands in front
of a field and a `receiver` in front of a method. -/
inductive Use where
  | identifier | call | target | freed | owner | receiver
  | element | indexed | source | origin
  | qualified
  | varDecl | arrDecl | funcDecl | blockDecl | instDecl
  | field
  deriving DecidableEq, Repr

/-- The names that are taken in a function or a Block: parameters, locals, loop variables and fields, what a call finds
in the frame (functions and arrays), the methods of the Block, and the Blocks and instances. -/
structure Scope where
  vars : List Ident := []
  fns : List Ident := []
  methods : List Ident := []
  insts : List Ident := []
  deriving DecidableEq, Repr

def Scope.hides (sc : Scope) : Use → Ident → Bool
  | .identifier, x | .target, x | .freed, x | .element, x | .indexed, x | .source, x => x ∈ sc.vars || x ∈ sc.fns
  | .call, x => x ∈ sc.fns || x ∈ sc.methods
  | .owner, x | .receiver, x | .origin, x => x ∈ sc.insts
  | _, _ => false

structure Occ where
  use : Use
  name : Ident
  declared : List Ident
  inFn : Bool
  scope : Scope
  deriving DecidableEq, Repr

/-- A piece of the tree. -/
abbrev Code (α : Type) := Written Occ Ident α

namespace Code

section Expressions

def literal (e : Expr) : Code Expr := .const e

def ident (x : Code Ident) : Code Expr := x.map (fun x => .identifier x {}) fun _ _ h => by cases h; rfl

def funcCall (f : Code Ident) (args : List (Code Expr)) : Code Expr :=
  .map₂ .funcCall (fun _ _ _ _ h => Expr.funcCall.inj h) f (.list args)

def memberAccess (owner : Code Ident) (field : Ident) : Code Expr :=
  owner.map (fun o => .memberAccess o field) fun _ _ h => by cases h; rfl

def memberCall (owner : Code Ident) (method : Ident) (args : List (Code Expr)) : Code Expr :=
  .map₂ (fun o => .memberCall o method) (fun _ _ _ _ h => by cases h; exact ⟨rfl, rfl⟩) owner (.list args)

def arrAccess (x : Code Ident) (index : Code Expr) : Code Expr :=
  .map₂ (fun x => .arrAccess x {}) (fun _ _ _ _ h => by cases h; exact ⟨rfl, rfl⟩) x index

def indexedMemberAccess (x : Code Ident) (index : Code Expr) (field : Ident) : Code Expr :=
  .map₂ (fun x i => .indexedMemberAccess x {} i field) (fun _ _ _ _ h => by cases h; exact ⟨rfl, rfl⟩) x index

def indexedMemberCall (x : Code Ident) (index : Code Expr) (method : Ident) (args : List (Code Expr)) : Code Expr :=
  .map₂ (fun x (p : Expr × List Expr) => .indexedMemberCall x {} p.1 method p.2)
    (fun _ _ _ _ h => ⟨(Expr.indexedMemberCall.inj h).1, Prod.ext (by simp_all) (by simp_all)⟩) x (index.pair (.list args))

def dynLit (elements : List (Code Expr)) : Code Expr := (Written.list elements).map .dynLit fun _ _ h => by cases h; rfl

def binary (op : BinOp) (l r : Code Expr) : Code Expr :=
  .map₂ (.binary op) (fun _ _ _ _ h => by cases h; exact ⟨rfl, rfl⟩) l r

def logic (op : LogicOp) (l r : Code Expr) : Code Expr :=
  .map₂ (.logic op) (fun _ _ _ _ h => by cases h; exact ⟨rfl, rfl⟩) l r

def not (e : Code Expr) : Code Expr := e.map .not fun _ _ h => by cases h; rfl

/-- A minus sign goes into a number and is a subtraction from zero otherwise. -/
def negated : Expr → Expr
  | .intLit i => .intLit (-i)
  | .floatLit d => .floatLit d.neg
  | e => .binary .sub (.intLit 0) e

theorem negated_injective : negated.Injective := by
  have hneg {d d' : Double} (h : d.neg = d'.neg) : d = d' := by cases d <;> cases d' <;> simp_all [Binary64.Double.neg]
  intro e e' h
  cases e <;> cases e' <;> simp_all [negated]
  exact hneg h

def neg (e : Code Expr) : Code Expr := e.map negated negated_injective

end Expressions

section Statements

def varDecl (t : TypeName) (x : Code Ident) (init : Code Expr) (persistent : Bool) : Code Stmt :=
  .map₂ (fun x e => .varDecl t x e persistent {}) (fun _ _ _ _ h => by cases h; exact ⟨rfl, rfl⟩) x init

def arrDecl (t : TypeName) (x : Code Ident) (size : ℕ) (init : Code ArrInit) (persistent : Bool) : Code Stmt :=
  .map₂ (fun x i => .arrDecl t x size i persistent) (fun _ _ _ _ h => by cases h; exact ⟨rfl, rfl⟩) x init

def arrDefault (e : Code Expr) : Code ArrInit := e.map .default fun _ _ h => by cases h; rfl

def arrElements (es : List (Code Expr)) : Code ArrInit := (Written.list es).map .elements fun _ _ h => by cases h; rfl

def assign (x : Code Ident) (value : Code Expr) : Code Stmt :=
  .map₂ (fun x e => .assign x e {}) (fun _ _ _ _ h => by cases h; exact ⟨rfl, rfl⟩) x value

def arrAssign (x : Code Ident) (index value : Code Expr) : Code Stmt :=
  .map₂ (fun x (p : Expr × Expr) => .arrAssign x {} p.1 p.2)
    (fun _ _ _ _ h => ⟨(Stmt.arrAssign.inj h).1, Prod.ext (by simp_all) (by simp_all)⟩) x (index.pair value)

def memberAssign (owner : Code Ident) (field : Ident) (value : Code Expr) : Code Stmt :=
  .map₂ (fun o e => .memberAssign o field e) (fun _ _ _ _ h => by cases h; exact ⟨rfl, rfl⟩) owner value

def exprStmt (e : Code Expr) : Code Stmt := e.map .exprStmt fun _ _ h => by cases h; rfl

def returnStmt (e : Option (Code Expr)) : Code Stmt := (Written.option e).map .returnStmt fun _ _ h => by cases h; rfl

def free (x : Code Ident) : Code Stmt := x.map (fun x => .free x {}) fun _ _ h => by cases h; rfl

def danger (body : List (Code Stmt)) : Code Stmt := (Written.list body).map .danger fun _ _ h => by cases h; rfl

def ifStmt (cond : Code Expr) (thn : List (Code Stmt)) (els : Option (List (Code Stmt))) : Code Stmt :=
  .map₂ (fun c (p : List Stmt × Option (List Stmt)) => .ifStmt c p.1 p.2)
    (fun _ _ _ _ h => ⟨(Stmt.ifStmt.inj h).1, Prod.ext (by simp_all) (by simp_all)⟩) cond
    ((Written.list thn).pair (.option (els.map .list)))

def whileStmt (cond : Code Expr) (body : List (Code Stmt)) : Code Stmt :=
  .map₂ .whileStmt (fun _ _ _ _ h => Stmt.whileStmt.inj h) cond (.list body)

def forStmt (var : Ident) (source : Code Ident) (body : List (Code Stmt)) : Code Stmt :=
  .map₂ (fun a b => .forStmt var {} a {} b) (fun _ _ _ _ h => by cases h; exact ⟨rfl, rfl⟩) source (.list body)

def funcDecl (id : ℕ) (name : Code Ident) (params : List (Ident × ParamType)) (returnType : TypeName)
    (body : List (Code Stmt)) : Code Stmt :=
  .map₂ (fun f b => .funcDecl id f params returnType b) (fun _ _ _ _ h => by cases h; exact ⟨rfl, rfl⟩) name (.list body)

def blockDecl (name : Code Ident) (members : List (Code Stmt)) : Code Stmt :=
  .map₂ .blockDecl (fun _ _ _ _ h => Stmt.blockDecl.inj h) name (.list members)

def typeofInst (inst origin : Code Ident) : Code Stmt :=
  .map₂ .typeofInst (fun _ _ _ _ h => Stmt.typeofInst.inj h) inst origin

end Statements

end Code

/-- `libs` are the libraries of the registry, `declared` has the names that were handed to `module_decl_add`, and
`nextId` numbers the function nodes. The list `imported` of the namespaces that are known stands apart: it is what the
parser asks. -/
structure Parser where
  tokens : List Token
  libs : List Ident
  exprDepth : ℕ := 0
  stmtDepth : ℤ := 0
  fnBodyDepth : ℕ := 0
  declared : List Ident := []
  nextId : ℕ := 0
  scope : Scope := {}

inductive ParseError where
  | message (text : String) (got : Token)
  | outOfFuel

abbrev ParseM := StateT Parser (ExceptT ParseError (Asking Ident))

section Names

def cutName (n : ℕ) (x : Ident) : Ident := String.ofList (x.toList.take n)

def mangle (ns name : Ident) : Ident := cutName 158 ns ++ "__" ++ cutName 158 name

/-- `is_module_decl`: the list has room for 256 names and keeps 63 characters of each. -/
def isModuleDecl (declared : List Ident) (x : Ident) : Bool := x ∈ (declared.take 256).map (cutName 63)

/-- Which occurrences the parser gives the prefix. -/
def Occ.mangles (o : Occ) : Bool :=
  match o.use with
  | .identifier | .call | .target | .freed | .owner | .receiver | .qualified => isModuleDecl o.declared o.name
  | .varDecl | .field => !o.inFn
  | .funcDecl | .blockDecl => true
  | .element | .indexed | .source | .origin | .arrDecl | .instDecl => false

/-- How the parser spells an occurrence; the main program has the empty namespace. -/
def Occ.spelled (ns : Ident) (o : Occ) : Ident := if ns ≠ "" ∧ o.mangles then mangle ns o.name else o.name

/-- In a method the fields come before the variables of the program and the methods before its functions. -/
def Occ.inMethod (fields methods : List Ident) (o : Occ) : Occ :=
  { o with scope := { o.scope with vars := o.scope.vars ++ fields, methods := o.scope.methods ++ methods } }

end Names

namespace Parse

section Declared

def moduleDeclAdd (x : Ident) : ParseM Unit := modify fun p => { p with declared := p.declared ++ [x] }

def isImportedNs (x : Ident) : ParseM Bool := Asking.query x

def registerNs (x : Ident) : ParseM Unit := Asking.add (cutName 63 x)

/-- A name that the parser may spell differently. -/
def named (use : Use) (x : Ident) : ParseM (Code Ident) := do
  let p ← get
  return .name ⟨use, x, p.declared, 0 < p.fnBodyDepth, p.scope⟩

/-- A name that it copies. -/
def plainName (x : Ident) : Code Ident := .const x

/-- A declaration in a function body. -/
def takeLocal (vars fns insts : List Ident) : ParseM Unit := modify fun p =>
  if 0 < p.fnBodyDepth then
    { p with scope := { p.scope with
        vars := p.scope.vars ++ vars, fns := p.scope.fns ++ fns, insts := p.scope.insts ++ insts } }
  else p

end Declared

section Tokens

def peek : ParseM Token := return (← get).tokens.headD .eof

def advance : ParseM Unit := modify fun p => { p with tokens := p.tokens.tail }

def parseError {α : Type} (msg : String) : ParseM α := do throw (.message msg (← peek))

def outOfFuel {α : Type} : ParseM α := throw .outOfFuel

def check (q : Punct) : ParseM Bool := do
  match ← peek with
  | .punct r => return q == r
  | _ => return false

def checkEof : ParseM Bool := do
  match ← peek with
  | .eof => return true
  | _ => return false

/-- `match`. -/
def accept (q : Punct) : ParseM Bool := do
  if ← check q then
    advance
    return true
  else return false

def expect (q : Punct) (ctx : String) : ParseM Unit := do
  if ← check q then advance else parseError ("expected '" ++ q.text ++ "' " ++ ctx)

def expectIdent (msg : String) : ParseM Ident := do
  match ← peek with
  | .ident x => do
      advance
      return x
  | _ => parseError msg

/-- A word that is not reserved. -/
def checkWord (word : Ident) : ParseM Bool := do
  match ← peek with
  | .ident x => return x == word
  | _ => return false

def acceptKeyword (k : Keyword) : ParseM Bool := do
  match ← peek with
  | .keyword l =>
    if k = l then
      advance
      return true
    else return false
  | _ => return false

/-- `is_type_token`. -/
def isTypeToken : Token → Option TypeName
  | .type .nil => none
  | .type t => some t
  | _ => none

/-- A type word in front of the parser, which is read. -/
def acceptType : ParseM (Option TypeName) := do
  match isTypeToken (← peek) with
  | some t => do
      advance
      return some t
  | none => return none

def acceptArr : ParseM Bool := do
  match ← peek with
  | .type .arr => do
      advance
      return true
  | _ => return false

end Tokens

section Expressions

def maxExprDepth : ℕ := 200

/-- `( expr, expr, ... )` behind the opening parenthesis, up to the closing one. -/
def parseArgs (expr : ParseM (Code Expr)) : ℕ → ParseM (List (Code Expr))
  | 0 => outOfFuel
  | n + 1 => do
      if (← check .rparen) || (← checkEof) then return []
      else do
        let e ← expr
        if ← accept .comma then return e :: (← parseArgs expr n) else return [e]

def parseElements (expr : ParseM (Code Expr)) : ℕ → ParseM (List (Code Expr))
  | 0 => outOfFuel
  | n + 1 => do
      if (← check .rbracket) || (← checkEof) then return []
      else do
        let e ← expr
        if ← accept .comma then return e :: (← parseElements expr n) else return [e]

/-- Operands with operators between them, joined from the left. -/
def parseChain {op : Type} (isOp : Token → Option op) (join : op → Code Expr → Code Expr → Code Expr)
    (operand : ParseM (Code Expr)) : ℕ → Code Expr → ParseM (Code Expr)
  | 0, _ => outOfFuel
  | n + 1, left => do
      match isOp (← peek) with
      | none => return left
      | some o => do
          advance
          let right ← operand
          parseChain isOp join operand n (join o left right)

def isMultiplicative : Token → Option BinOp
  | .op .mul => some .mul
  | .op .div => some .div
  | .op .mod => some .mod
  | _ => none

def isAdditive : Token → Option BinOp
  | .op .add => some .add
  | .op .sub => some .sub
  | _ => none

def isComparison : Token → Option BinOp
  | .op op => if op ∈ [.eq, .ne, .lt, .gt, .le, .ge] then some op else none
  | _ => none

def isLogic (op : LogicOp) : Token → Option LogicOp
  | .logic o => if o = op then some op else none
  | _ => none

section Levels

variable (primary : ParseM (Code Expr)) (n : ℕ)

def parseTerm : ParseM (Code Expr) := do parseChain isMultiplicative .binary primary n (← primary)

def parseArith : ParseM (Code Expr) := do parseChain isAdditive .binary (parseTerm primary n) n (← parseTerm primary n)

/-- A comparison has two operands at most. -/
def parseComparison : ParseM (Code Expr) := do
  let left ← parseArith primary n
  match isComparison (← peek) with
  | none => return left
  | some op => do
      advance
      let right ← parseArith primary n
      return .binary op left right

def parseLogicAnd : ParseM (Code Expr) := do
  parseChain (isLogic .and) .logic (parseComparison primary n) n (← parseComparison primary n)

def parseExprOf : ParseM (Code Expr) := do
  if maxExprDepth < (← get).exprDepth then parseError "expression nested too deeply"
  parseChain (isLogic .or) .logic (parseLogicAnd primary n) n (← parseLogicAnd primary n)

end Levels

/-- The name of a type word, which may stand in front of a dot or a parenthesis. -/
def nameOf : Token → Option Ident
  | .ident x => some x
  | .keyword .err => some "err"
  | .type .str => some "str"
  | .type .int => some "int"
  | .type .float => some "float"
  | .type .bool => some "bool"
  | _ => none

section Primary

variable (expr : ParseM (Code Expr)) (n : ℕ)

/-- Behind `name[`. -/
def parseIndexed (x : Ident) : ParseM (Code Expr) := do
  let index ← expr
  expect .rbracket "after array index"
  if ← accept .dot then do
    let member ← expectIdent "expected member name after '.'"
    if ← accept .lparen then do
      let args ← parseArgs expr n
      expect .rparen "after method arguments"
      return .indexedMemberCall (← named .indexed x) index member args
    else return .indexedMemberAccess (← named .indexed x) index member
  else return .arrAccess (← named .element x) index

/-- Behind `ns.` for a namespace that is known. -/
def parseQualified (ns member : Ident) : ParseM (Code Expr) := do
  if ← accept .dot then do
    let member' ← expectIdent "expected member name after '.'"
    if ← accept .lparen then do
      let args ← parseArgs expr n
      expect .rparen "after method arguments"
      return .memberCall (plainName (mangle ns member)) member' args
    else return .memberAccess (plainName (mangle ns member)) member'
  else if ← accept .lparen then do
    let f ← named .qualified (mangle ns member)
    let args ← parseArgs expr n
    expect .rparen "after module function arguments"
    return .funcCall f args
  else return .ident (← named .qualified (mangle ns member))

/-- Behind `name.`. -/
def parseMember (x : Ident) : ParseM (Code Expr) := do
  let member ← expectIdent "expected member name after '.'"
  if ← isImportedNs x then parseQualified expr n x member
  else if ← accept .lparen then do
    let args ← parseArgs expr n
    expect .rparen "after method arguments"
    return .memberCall (← named .receiver x) member args
  else return .memberAccess (← named .owner x) member

def parseCall (x : Ident) : ParseM (Code Expr) := do
  let f ← named .call x
  let args ← parseArgs expr n
  expect .rparen "after function arguments"
  return .funcCall f args

def parseNamed (x : Ident) : ParseM (Code Expr) := do
  if ← accept .lbracket then parseIndexed expr n x
  else if ← accept .dot then parseMember expr n x
  else if ← accept .lparen then parseCall expr n x
  else return .ident (← named .identifier x)

end Primary

/-- The depth counts the operands of a statement: it is never taken back. -/
def parsePrimary : ℕ → ParseM (Code Expr)
  | 0 => outOfFuel
  | n + 1 => do
      if maxExprDepth < (← get).exprDepth then parseError "expression nested too deeply"
      modify fun p => { p with exprDepth := p.exprDepth + 1 }
      let expr := parseExprOf (parsePrimary n) n
      let t ← peek
      match t with
      | .string s => do
          advance
          return .literal (.stringLit s)
      | .int i => do
          advance
          return .literal (.intLit i)
      | .float d => do
          advance
          return .literal (.floatLit d)
      | .bool b => do
          advance
          return .literal (.boolLit b)
      | .keyword .nil => do
          let x ← named .identifier "nil"
          advance
          return .ident x
      | .punct .lparen => do
          advance
          let e ← expr
          expect .rparen "after expression"
          return e
      | .op .sub => do
          advance
          let e ← parsePrimary n
          return e.neg
      | .not => do
          advance
          let e ← parsePrimary n
          return e.not
      | t =>
        match nameOf t with
        | some x => do
            advance
            parseNamed expr n x
        | none => parseError "unexpected token in expression"

def parseExpr (n : ℕ) : ParseM (Code Expr) := parseExprOf (parsePrimary n) n

end Expressions

section Functions

/-- Up to the closing parenthesis. -/
def parseParams : ℕ → ParseM (List (Ident × ParamType))
  | 0 => outOfFuel
  | n + 1 => do
      if (← check .rparen) || (← checkEof) then return []
      else do
        match ← acceptType with
        | none => parseError "expected type in parameter list"
        | some t => do
            let isArr ← if t = .arr then pure false else acceptArr
            let x ← expectIdent "expected parameter name after type"
            if ← accept .comma then return (x, ⟨t, isArr⟩) :: (← parseParams n) else return [(x, ⟨t, isArr⟩)]

def parseReturnType : ParseM TypeName := do
  if ← acceptKeyword .nil then return .nil
  else match ← acceptType with
    | some t => return t
    | none => parseError "expected return type after parameter list"

/-- The name, the parameters and the return type of a function. -/
def parseSignature (n : ℕ) : ParseM (Ident × List (Ident × ParamType) × TypeName) := do
  let f ← expectIdent "expected function name after 'fn'"
  expect .lparen "after function name"
  let params ← parseParams n
  expect .rparen "after parameter list"
  let returnType ← parseReturnType
  return (f, params, returnType)

/-- A body is parsed one level deeper, in a scope of its own: the parameters, and the function itself where it is
found in the frame only. -/
def inFunction {α : Type} (params : List Ident) (self : List Ident) (body : ParseM α) : ParseM α := do
  let outer := (← get).scope
  modify fun p => { p with fnBodyDepth := p.fnBodyDepth + 1, scope := { vars := params, fns := self } }
  let b ← body
  modify fun p => { p with fnBodyDepth := p.fnBodyDepth - 1, scope := outer }
  return b

/-- The identity of a new function node. -/
def freshId : ParseM ℕ := do
  let id := (← get).nextId
  modify fun p => { p with nextId := id + 1 }
  return id

end Functions

section Bodies

variable (stmt : ParseM (Option (Code Stmt)))

/-- The statements in front of a closing brace. -/
def parseStatements : ℕ → ParseM (List (Code Stmt))
  | 0 => outOfFuel
  | n + 1 => do
      if (← check .rbrace) || (← checkEof) then return []
      else do
        let st ← stmt
        let rest ← parseStatements n
        return st.toList ++ rest

def maxStmtDepth : ℤ := 200

def parseBody (n : ℕ) : ParseM (List (Code Stmt)) := do
  if maxStmtDepth < (← get).stmtDepth then parseError "block nested too deeply"
  modify fun p => { p with stmtDepth := p.stmtDepth + 1 }
  expect .lbrace "expected '\x7b' to open block"
  let body ← parseStatements stmt n
  expect .rbrace "expected '\x7d' to close block"
  modify fun p => { p with stmtDepth := p.stmtDepth - 1 }
  return body

/-- Behind `fn`. The name joins the list of declarations once the body is parsed. -/
def parseFn (n : ℕ) : ParseM (Code Stmt) := do
  let (f, params, returnType) ← parseSignature n
  let nested := 0 < (← get).fnBodyDepth
  let body ← inFunction (params.map (·.1)) (if nested then [f] else []) (parseBody stmt n)
  let name ← named .funcDecl f
  moduleDeclAdd f
  takeLocal [] [f] []
  return .funcDecl (← freshId) name params returnType body

end Bodies

section Declarations

/-- `(int)atol`. -/
def arrSize (i : Int64) : ℤ := i.toInt.bmod (2 ^ 32)

/-- Behind the name of an array: its size and the equals sign. -/
def parseArrSize (afterName afterSize : String) : ParseM ℤ := do
  expect .lbracket afterName
  match ← peek with
  | .int i => do
      advance
      expect .rbracket "after array size"
      expect .eq afterSize
      return arrSize i
  | _ => parseError "expected integer size in array declaration"

def parseArrInit (n : ℕ) (size : ℤ) (mismatch : ℕ → String) : ParseM (Code ArrInit) := do
  if ← accept .lbracket then do
    let es ← parseElements (parseExpr n) n
    expect .rbracket "to close array literal"
    if es.length = size then return .arrElements es else parseError (mismatch es.length)
  else return .arrDefault (← parseExpr n)

/-- Behind `<type> arr`. -/
def parseArrDecl (n : ℕ) (t : TypeName) (persistent : Bool) : ParseM (Code Stmt) := do
  let x ← expectIdent "expected array name after 'arr'"
  let size ← parseArrSize "after array name" "after array declaration"
  let init ← parseArrInit n size fun count =>
    s!"array literal has {count} element(s) but '{x}' was declared with size {size} " ++
      s!"(use scalar initializer: {t.text} arr {x}[{size}] = <value>)"
  let name ← named .arrDecl x
  takeLocal [x] [x] []
  return .arrDecl t name size.toNat init persistent

def isBareLiteral : Token → Bool
  | .int _ | .float _ | .string _ | .bool _ | .keyword .nil => true
  | _ => false

/-- The initialiser of a variable: only a dyn may have a literal in brackets. -/
def parseInit (n : ℕ) (t : TypeName) : ParseM (Code Expr) := do
  if t = .dyn then
    if ← accept .lbracket then do
      let es ← parseElements (parseExpr n) n
      expect .rbracket "to close dyn literal"
      return .dynLit es
    else if isBareLiteral (← peek) then
      parseError ("dyn variable must be initialized with a literal '[...]' or a function call — bare values are " ++
        "not allowed (e.g. dyn a = 8 is invalid)")
    else parseExpr n
  else parseExpr n

/-- `p_var_decl`: a variable outside of the functions joins the list of declarations. -/
def declareVar (use : Use) (t : TypeName) (x : Ident) (init : Code Expr) (persistent : Bool) : ParseM (Code Stmt) := do
  let name ← named use x
  if (← get).fnBodyDepth = 0 then moduleDeclAdd x
  return .varDecl t name init persistent

/-- Behind `<type>`. -/
def parseVarDecl (n : ℕ) (t : TypeName) (persistent : Bool) : ParseM (Code Stmt) := do
  let x ← expectIdent "expected variable name after type"
  expect .eq "after variable name"
  let init ← parseInit n t
  let st ← declareVar .varDecl t x init persistent
  takeLocal [x] [] []
  return st

end Declarations

section Blocks

variable (stmt : ParseM (Option (Code Stmt)))

/-- A member of a Block with the fields and methods it declares. -/
structure Member where
  code : Code Stmt
  fields : List Ident := []
  methods : List Ident := []

/-- A method. Its body has braces of its own, which are not counted. -/
def parseMethod (n : ℕ) : ParseM Member := do
  let (f, params, returnType) ← parseSignature n
  expect .lbrace "expected '\x7b' to open function body"
  let body ← inFunction (params.map (·.1)) [f] (parseStatements stmt n)
  expect .rbrace "expected '\x7d' to close function body"
  return { code := .funcDecl (← freshId) (plainName f) params returnType body, methods := [f] }

/-- An array field, behind `<type> arr`. -/
def parseArrField (n : ℕ) (t : TypeName) (persistent : Bool) : ParseM Member := do
  let x ← expectIdent "expected array name after 'arr' in Block"
  let size ← parseArrSize "after array name in Block" "after array declaration in Block"
  let init ← parseArrInit n size fun count =>
    s!"array literal has {count} element(s) but '{x}' was declared with size {size}"
  return { code := .arrDecl t (plainName x) size.toNat init persistent, fields := [x] }

/-- A field, behind `<type>`. -/
def parseField (n : ℕ) (t : TypeName) (persistent : Bool) : ParseM Member := do
  let x ← expectIdent "expected variable name after type in Block"
  expect .eq "after variable name in Block"
  let init ← parseExpr n
  return { code := ← declareVar .field t x init persistent, fields := [x] }

def parseBlockMember (n : ℕ) : ParseM Member := do
  let persistent ← acceptKeyword .prst
  if ← acceptKeyword .fn then parseMethod stmt n
  else match ← acceptType with
    | some t => if ← acceptArr then parseArrField n t persistent else parseField n t persistent
    | none => parseError "expected 'fn' or type declaration inside Block"

def parseMembers (n : ℕ) : ℕ → ParseM (List Member)
  | 0 => outOfFuel
  | m + 1 => do
      if (← check .rbrace) || (← checkEof) then return []
      else do
        let member ← parseBlockMember stmt n
        let rest ← parseMembers n m
        return member :: rest

/-- The members' code, with the fields and methods known in the methods. -/
def membersCode (members : List Member) : List (Code Stmt) :=
  let inMethod := Occ.inMethod (members.flatMap (·.fields)) (members.flatMap (·.methods))
  members.map fun m => if m.methods.isEmpty then m.code else m.code.relabel inMethod

/-- Behind `Block <name> typeof`. -/
def parseTypeof (x : Ident) : ParseM (Code Stmt) := do
  let origin ← expectIdent "expected Block name after 'typeof'"
  let inst ← named .instDecl x
  let code ← if (← check .dot) && (← isImportedNs origin) then do
      advance
      let member ← expectIdent "expected Block name after '.'"
      pure (Code.typeofInst inst (plainName (mangle origin member)))
    else do pure (Code.typeofInst inst (← named .origin origin))
  takeLocal [] [] [x]
  return code

/-- Behind `Block`. The depth of the statements is taken back although it was not counted up. -/
def parseBlockDecl (n : ℕ) : ParseM (Code Stmt) := do
  let x ← expectIdent "expected Block name after 'Block'"
  if ← acceptKeyword .typeof then parseTypeof x
  else do
    expect .lbrace "after Block name"
    let name ← named .blockDecl x
    moduleDeclAdd x
    takeLocal [] [] [x]
    let members ← parseMembers stmt n n
    expect .rbrace "expected '\x7d' to close Block"
    modify fun p => { p with stmtDepth := p.stmtDepth - 1 }
    return .blockDecl name (membersCode members)

end Blocks

section Statements

def importWord : Token → Option Ident
  | .ident x => some x
  | .type .str => some "str"
  | .type .int => some "int"
  | .type .float => some "float"
  | .type .bool => some "bool"
  | _ => none

/-- The name of a library, and a second name behind `as`, which is read and forgotten. -/
def parseImportStd : ParseM (Code Stmt) := do
  match ← peek with
  | .ident _ | .type .str => do
      let lib := cutName 63 (((importWord (← peek))).getD "")
      advance
      if ← checkWord "as" then do
        advance
        match ← peek with
        | .ident _ => advance
        | _ => pure ()
      let libs := (← get).libs
      if lib ∈ libs ∨ lib = "vec" then return .const (.importStd lib)
      else parseError ("unknown std library '" ++ lib ++ "' — available: " ++ String.intercalate ", " libs)
  | _ => parseError "expected library name after 'import std' (e.g. 'import std math')"

def parseImportC : ParseM Unit := do
  let _ ← expectIdent "expected library name after 'import c'"
  if ← checkWord "as" then do
    advance
    let _ ← expectIdent "expected alias after 'as'"

/-- Behind `import`. A module was parsed before: its name is all that counts. -/
def parseImport : ParseM (Option (Code Stmt)) := do
  match importWord (← peek) with
  | none => parseError "expected 'c', 'std', 'live', or 'static' after 'import'"
  | some w =>
    if w = "live" ∨ w = "static" then do
      advance
      registerNs (← expectIdent "expected module name after 'import live/static'")
      return none
    else if w = "std" then do
      advance
      return some (← parseImportStd)
    else if w = "c" then do
      advance
      parseImportC
      return none
    else parseError "expected 'c' or 'std' after 'import'"

/-- Behind `for`. The loop variable is one of the function's from here on; outside of a function it is taken for the
body. -/
def parseFor (stmt : ParseM (Option (Code Stmt))) (n : ℕ) : ParseM (Code Stmt) := do
  let x ← expectIdent "expected loop variable after 'for'"
  if !(← checkWord "in") then parseError "expected 'in' after loop variable"
  advance
  let a ← expectIdent "expected array name after 'in'"
  let source ← named .source a
  let outer := (← get).scope
  modify fun p => { p with scope := { p.scope with vars := p.scope.vars ++ [x] } }
  let body ← parseBody stmt n
  if (← get).fnBodyDepth = 0 then modify fun p => { p with scope := outer }
  return .forStmt x source body

section Named

variable (n : ℕ)

/-- A statement behind `name[`. -/
def parseIndexedStatement (x : Ident) : ParseM (Code Stmt) := do
  let index ← parseExpr n
  expect .rbracket "after array index"
  if ← accept .dot then do
    let member ← expectIdent "expected member name after '.'"
    if ← accept .lparen then do
      let args ← parseArgs (parseExpr n) n
      expect .rparen "after method arguments"
      return .exprStmt (.indexedMemberCall (← named .indexed x) index member args)
    else parseError "expected '(' after method name"
  else do
    expect .eq "after array access"
    let value ← parseExpr n
    return .arrAssign (← named .element x) index value

/-- A statement behind `ns.member` for a namespace that is known. -/
def parseQualifiedStatement (ns member : Ident) : ParseM (Code Stmt) := do
  let flat := mangle ns member
  if ← accept .dot then do
    let member' ← expectIdent "expected member name after '.'"
    if ← accept .lparen then do
      let args ← parseArgs (parseExpr n) n
      expect .rparen "after method arguments"
      return .exprStmt (.memberCall (plainName flat) member' args)
    else if ← accept .eq then return .memberAssign (plainName flat) member' (← parseExpr n)
    else parseError "expected '(' or '=' after Block member name"
  else if ← accept .lparen then do
    let f ← named .qualified flat
    let args ← parseArgs (parseExpr n) n
    expect .rparen "after module function arguments"
    return .exprStmt (.funcCall f args)
  else if ← accept .eq then return .assign (plainName flat) (← parseExpr n)
  else parseError "expected '(' or '=' after module member name"

/-- A statement behind `name.`. -/
def parseMemberStatement (x : Ident) : ParseM (Code Stmt) := do
  let member ← expectIdent "expected member name after '.'"
  if ← isImportedNs x then parseQualifiedStatement n x member
  else if ← accept .lparen then do
    let args ← parseArgs (parseExpr n) n
    expect .rparen "after method arguments"
    return .exprStmt (.memberCall (← named .receiver x) member args)
  else if ← accept .eq then do
    let value ← parseExpr n
    return .memberAssign (← named .owner x) member value
  else parseError "expected '(' or '=' after member name"

def parseNamedStatement (x : Ident) : ParseM (Code Stmt) := do
  if ← accept .lbracket then parseIndexedStatement n x
  else if ← accept .dot then parseMemberStatement n x
  else if ← accept .eq then do
    let value ← parseExpr n
    return .assign (← named .target x) value
  else if ← accept .lparen then return .exprStmt (← parseCall (parseExpr n) n x)
  else parseError "expected '=', '[', '.' or '(' after identifier"

end Named

def parseReturn (n : ℕ) : ParseM (Code Stmt) := do
  if (← check .rbrace) || (← checkEof) then return .returnStmt none
  else return .returnStmt (some (← parseExpr n))

def parseFree : ParseM (Code Stmt) := do
  expect .lparen "after 'free'"
  let x ← expectIdent "expected variable name in free()"
  expect .rparen "after variable name in free()"
  return .free (← named .freed x)

def parseIf (stmt : ParseM (Option (Code Stmt))) (n : ℕ) : ParseM (Code Stmt) := do
  let cond ← parseExpr n
  let thn ← parseBody stmt n
  if ← acceptKeyword .else then return .ifStmt cond thn (some (← parseBody stmt n))
  else return .ifStmt cond thn none

def parseWhile (stmt : ParseM (Option (Code Stmt))) (n : ℕ) : ParseM (Code Stmt) := do
  let cond ← parseExpr n
  return .whileStmt cond (← parseBody stmt n)

/-- `none` is a statement without a node. -/
def parseStatement : ℕ → ParseM (Option (Code Stmt))
  | 0 => outOfFuel
  | n + 1 => do
      modify fun p => { p with exprDepth := 0 }
      let persistent ← acceptKeyword .prst
      let t ← peek
      match t with
      | .keyword .import => do
          advance
          parseImport
      | .keyword .block => do
          advance
          return some (← parseBlockDecl (parseStatement n) n)
      | .keyword .fn => do
          advance
          return some (← parseFn (parseStatement n) n)
      | .keyword .return => do
          advance
          return some (← parseReturn n)
      | .keyword .danger => do
          advance
          return some (.danger (← parseBody (parseStatement n) n))
      | .keyword .free => do
          advance
          return some (← parseFree)
      | .keyword .if => do
          advance
          return some (← parseIf (parseStatement n) n)
      | .keyword .while => do
          advance
          return some (← parseWhile (parseStatement n) n)
      | .keyword .for => do
          advance
          return some (← parseFor (parseStatement n) n)
      | t =>
        match isTypeToken t with
        | some t => do
            advance
            if ← acceptArr then return some (← parseArrDecl n t persistent)
            else return some (← parseVarDecl n t persistent)
        | none =>
          if persistent then parseError "expected type after 'prst'"
          else match t with
            | .ident x => do
                advance
                return some (← parseNamedStatement n x)
            | _ => parseError "expected statement"

end Statements

section Modules

def parseAll (n : ℕ) : ℕ → ParseM (List (Code Stmt))
  | 0 => outOfFuel
  | m + 1 => do
      if ← checkEof then return []
      else do
        let st ← parseStatement n
        let rest ← parseAll n m
        return st.toList ++ rest

variable (fuel importedCap : ℕ) (imported libs : List Ident) (ns : Ident) (source : List Token)

/-- The whole source, with the questions for namespaces left open. -/
def parseSource : Asking Ident (Except ParseError (List (Code Stmt) × Parser)) :=
  ((parseAll fuel fuel).run { tokens := source, libs := libs }).run

/-- `parser_parse`: the source as a program of its own, where these namespaces are known. -/
def parseProgram : Except ParseError (Code (List Stmt)) :=
  ((parseSource fuel libs source).answer importedCap (imported.take importedCap)).map fun r => .list r.1

/-- `parser_parse_module`: the parser of a module knows the namespaces of the main program and its own. -/
def parseModule : Except ParseError (Code (List Stmt)) :=
  let known := imported.take importedCap
  ((parseSource fuel libs source).answer importedCap
    (if known.length < importedCap then known ++ [cutName 63 ns] else known)).map fun r => .list r.1

end Modules

end Parse

end Fluxa
