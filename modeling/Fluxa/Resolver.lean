import Fluxa.Ast

/-! Name resolution (`resolver.c`). Every scope numbers its names from zero, so a slot is only
meaningful together with the frame it indexes; a name that the own table lacks is looked up in the
parent's and keeps the parent's number. The source walks statements with an explicit work stack, which
visits them in source order, except that the methods of a Block, whose tables are their own, are visited
last to first; a node pushed onto a full stack is dropped, that is, it keeps its unresolved annotation. `top`
below is the number of pending items when a node is popped. -/

namespace Fluxa

def symMax : ℕ := 512

def workStackCap : ℕ := 4096

/-- A table's own names, in declaration order: the slot of a name is its index. -/
structure SymTable where
  names : List Ident
  nodup : names.Nodup
  size_le : names.length ≤ symMax

namespace SymTable

def empty : SymTable := ⟨[], List.nodup_nil, by decide⟩

def add (t : SymTable) (name : Ident) (fresh : name ∉ t.names) (room : t.names.length < symMax) : SymTable where
  names := t.names ++ [name]
  nodup := by
    rw [List.nodup_append]
    refine ⟨t.nodup, List.nodup_singleton name, ?_⟩
    rintro a ha b hb rfl
    exact fresh (List.mem_singleton.mp hb ▸ ha)
  size_le := by
    rw [List.length_append, List.length_singleton]
    exact room

theorem getElem?_of_idxOf? {l : List Ident} {x : Ident} {i : ℕ} (h : l.idxOf? x = some i) : l[i]? = some x := by
  obtain ⟨hi, hx, _⟩ := List.findIdx?_eq_some_iff_getElem.mp h
  rw [List.getElem?_eq_getElem hi]
  simpa using hx

theorem idxOf?_of_getElem? (t : SymTable) {i : ℕ} {x : Ident} (h : t.names[i]? = some x) :
    t.names.idxOf? x = some i := by
  obtain ⟨hi, hx⟩ := List.getElem?_eq_some_iff.mp h
  refine List.findIdx?_eq_some_iff_getElem.mpr ⟨hi, by simpa using hx, ?_⟩
  intro j hj hjx
  have hinj := List.nodup_iff_injective_getElem.mp t.nodup
  have hji : (⟨j, hj.trans hi⟩ : Fin t.names.length) = ⟨i, hi⟩ := hinj (by simpa [hx] using hjx)
  simp only [Fin.mk.injEq] at hji
  omega

theorem idxOf?_lt (t : SymTable) {i : ℕ} {x : Ident} (h : t.names.idxOf? x = some i) : i < t.names.length := by
  obtain ⟨hi, _⟩ := List.getElem?_eq_some_iff.mp (getElem?_of_idxOf? h)
  exact hi

end SymTable

/-- The own table first, then the parent chain. -/
def symtableFind : List SymTable → Ident → Option ℕ
  | [], _ => none
  | t :: parents, name =>
    match t.names.idxOf? name with
    | some i => some i
    | none => symtableFind parents name

theorem symtableFind_of_mem {t : SymTable} {x : Ident} (h : x ∈ t.names) (parents : List SymTable) :
    symtableFind (t :: parents) x = t.names.idxOf? x := by
  have hx : t.names.idxOf? x ≠ none := by simpa using h
  obtain ⟨i, hi⟩ := Option.ne_none_iff_exists'.mp hx
  rw [symtableFind, hi]

theorem symtableFind_append {inside : List SymTable} {x : Ident} (h : ∀ t ∈ inside, x ∉ t.names)
    (parents : List SymTable) : symtableFind (inside ++ parents) x = symtableFind parents x := by
  induction inside with
  | nil => rfl
  | cons t rest ih =>
    have hx : t.names.idxOf? x = none := by simpa using h t (by simp)
    rw [List.cons_append, symtableFind, hx]
    exact ih fun u hu => h u (by simp [hu])

def symtableDeclare (t : SymTable) (name : Ident) : SymTable × Option ℕ :=
  match h : t.names.idxOf? name with
  | some i => (t, some i)
  | none =>
    if room : t.names.length < symMax then
      (t.add name (by simpa using h) room, some t.names.length)
    else (t, none)

/-- `scopes` is the table chain the node is resolved in, `inFunc` the function nesting. -/
structure ResolveCtx where
  scopes : List SymTable
  inFunc : ℕ

namespace ResolveCtx

/-- An identifier is marked warm whenever it resolves inside a function, whichever table it is found
in; the other reading nodes only get their slot. -/
def identRef (c : ResolveCtx) (name : Ident) : Ref :=
  let off := symtableFind c.scopes name
  ⟨off, decide (0 < c.inFunc) && off.isSome⟩

def nameRef (c : ResolveCtx) (name : Ident) (ref : Ref) : Ref :=
  ⟨symtableFind c.scopes name, ref.warm⟩

end ResolveCtx

mutual

def resolveExpr (c : ResolveCtx) : Expr → Expr
  | .intLit i => .intLit i
  | .floatLit d => .floatLit d
  | .boolLit b => .boolLit b
  | .stringLit s => .stringLit s
  | .identifier name _ => .identifier name (c.identRef name)
  | .binary op l r => .binary op (resolveExpr c l) (resolveExpr c r)
  | .logic op l r => .logic op (resolveExpr c l) (resolveExpr c r)
  | .not e => .not (resolveExpr c e)
  | .funcCall name args => .funcCall name (resolveExprs c args)
  | .memberAccess owner field => .memberAccess owner field
  | .memberCall owner method args => .memberCall owner method (resolveExprs c args)
  | .arrAccess name ref index => .arrAccess name (c.nameRef name ref) (resolveExpr c index)
  | .dynLit elements => .dynLit (resolveExprs c elements)
  | .indexedMemberAccess name ref index field =>
    .indexedMemberAccess name (c.nameRef name ref) (resolveExpr c index) field
  | .indexedMemberCall name ref index method args =>
    .indexedMemberCall name (c.nameRef name ref) (resolveExpr c index) method (resolveExprs c args)

def resolveExprs (c : ResolveCtx) : List Expr → List Expr
  | [] => []
  | e :: es => resolveExpr c e :: resolveExprs c es

end

/-- The table of the scope being resolved and the number of scopes taken from the pool. -/
structure ResolveState where
  syms : SymTable
  used : ℕ

namespace ResolveState

def declare (s : ResolveState) (name : Ident) : ResolveState :=
  { s with syms := (symtableDeclare s.syms name).1 }

/-- `ALLOC_SCOPE`, which fails when the pool is exhausted. -/
def allocScope (cap : ℕ) (s : ResolveState) : Option ResolveState :=
  if s.used < cap then some { s with used := s.used + 1 } else none

end ResolveState

/-- The table of a body before its statements are resolved. -/
def paramTable (params : List (Ident × ParamType)) : SymTable :=
  params.foldl (fun t p => (symtableDeclare t p.1).1) .empty

section Statements

variable (cap : ℕ)

mutual

def resolveStmt (parents : List SymTable) (inFunc top : ℕ) :
    Stmt → ResolveState → Option (Stmt × ResolveState)
  | .varDecl type name init persistent ref, s =>
    let d := symtableDeclare s.syms name
    let warm := ref.warm || (decide (0 < inFunc) && !persistent && d.2.isSome)
    some (.varDecl type name (resolveExpr ⟨s.syms :: parents, inFunc⟩ init) persistent ⟨d.2, warm⟩,
      { s with syms := d.1 })
  | .assign name value ref, s =>
    let c : ResolveCtx := ⟨s.syms :: parents, inFunc⟩
    some (.assign name (resolveExpr c value) (c.nameRef name ref), s)
  | .ifStmt cond thn none, s => do
      let (thn, s') ← resolveStmts parents inFunc top thn s
      pure (.ifStmt (resolveExpr ⟨s.syms :: parents, inFunc⟩ cond) thn none, s')
  | .ifStmt cond thn (some els), s => do
      -- the else branch is pushed first, so it is the one sure to find room
      let (thn, s') ←
        if top + 1 < workStackCap then resolveStmts parents inFunc (top + 1) thn s else some (thn, s)
      let (els, s') ← resolveStmts parents inFunc top els s'
      pure (.ifStmt (resolveExpr ⟨s.syms :: parents, inFunc⟩ cond) thn (some els), s')
  | .whileStmt cond body, s => do
      let (body, s') ← resolveStmts parents inFunc top body s
      pure (.whileStmt (resolveExpr ⟨s.syms :: parents, inFunc⟩ cond) body, s')
  | .forStmt var ref arr arrRef body, s => do
      let d := symtableDeclare s.syms var
      let (body, s') ← resolveStmts parents inFunc top body { s with syms := d.1 }
      pure (.forStmt var ⟨d.2, ref.warm⟩ arr
        (ResolveCtx.nameRef ⟨s.syms :: parents, inFunc⟩ arr arrRef) body, s')
  | .arrDecl type name size (.default e) persistent, s =>
    some (.arrDecl type name size (.default (resolveExpr ⟨s.syms :: parents, inFunc⟩ e)) persistent, s)
  | .arrDecl type name size (.elements es) persistent, s =>
    some (.arrDecl type name size (.elements (resolveExprs ⟨s.syms :: parents, inFunc⟩ es)) persistent, s)
  | .arrAssign name ref index value, s =>
    let c : ResolveCtx := ⟨s.syms :: parents, inFunc⟩
    some (.arrAssign name (c.nameRef name ref) (resolveExpr c index) (resolveExpr c value), s)
  | .funcDecl id name params ret body, s => do
      let s ← (s.declare name).allocScope cap
      let (body, s') ← resolveStmts (s.syms :: parents) (inFunc + 1) top body ⟨paramTable params, s.used⟩
      pure (.funcDecl id name params ret body, { s with used := s'.used })
  | .returnStmt value, s =>
    some (.returnStmt (value.map (resolveExpr ⟨s.syms :: parents, inFunc⟩)), s)
  | .blockDecl name members, s => do
      let s ← (s.declare name).allocScope cap
      let (members, _, used) ← resolveMembers parents inFunc top s.syms members .empty s.used
      pure (.blockDecl name members, { s with used := used })
  | .typeofInst inst origin, s => some (.typeofInst inst origin, s.declare inst)
  | .memberAssign owner field value, s =>
    some (.memberAssign owner field (resolveExpr ⟨s.syms :: parents, inFunc⟩ value), s)
  | .danger body, s => do
      let (body, s') ← resolveStmts parents inFunc top body s
      pure (.danger body, s')
  | .free name ref, s =>
    some (.free name (ResolveCtx.nameRef ⟨s.syms :: parents, inFunc⟩ name ref), s)
  | .importStd lib, s => some (.importStd lib, s)
  | .exprStmt call, s => some (.exprStmt (resolveExpr ⟨s.syms :: parents, inFunc⟩ call), s)

/-- The children of a list node, popped in source order over the ones still to come. -/
def resolveStmts (parents : List SymTable) (inFunc top : ℕ) :
    List Stmt → ResolveState → Option (List Stmt × ResolveState)
  | [], s => some ([], s)
  | st :: rest, s => do
      let (st, s) ←
        if top + rest.length < workStackCap then resolveStmt parents inFunc (top + rest.length) st s
        else some (st, s)
      let (rest, s) ← resolveStmts parents inFunc top rest s
      pure (st :: rest, s)

/-- The members of a Block: initialisers see the enclosing scope, methods only themselves. `fields` is
the Block's own table and `top` grows with every method body pushed. -/
def resolveMembers (parents : List SymTable) (inFunc top : ℕ) (syms : SymTable) :
    List Stmt → SymTable → ℕ → Option (List Stmt × SymTable × ℕ)
  | [], fields, used => some ([], fields, used)
  | .varDecl type name init persistent ref :: rest, fields, used => do
      let d := symtableDeclare fields name
      let (rest, fields, used) ← resolveMembers parents inFunc top syms rest d.1 used
      pure (.varDecl type name (resolveExpr ⟨syms :: parents, inFunc⟩ init) persistent ⟨d.2, ref.warm⟩
        :: rest, fields, used)
  | .funcDecl id name params ret body :: rest, fields, used => do
      let s ← ResolveState.allocScope cap ⟨(symtableDeclare fields name).1, used⟩
      let (body, s') ←
        if top < workStackCap then resolveStmts [] 1 top body ⟨paramTable params, s.used⟩
        else some (body, ⟨.empty, s.used⟩)
      let (rest, fields, used) ← resolveMembers parents inFunc (top + 1) syms rest s.syms s'.used
      pure (.funcDecl id name params ret body :: rest, fields, used)
  | st :: rest, fields, used => do
      let (rest, fields, used) ← resolveMembers parents inFunc top syms rest fields used
      pure (st :: rest, fields, used)

end

/-- `resolver_run`, with `none` for its failure. -/
def resolverRun (program : List Stmt) : Option (List Stmt) :=
  (resolveStmts cap [] 0 0 program ⟨.empty, 0⟩).map (·.1)

end Statements

mutual

def hasPrstNode : Stmt → Bool
  | .varDecl _ _ _ persistent _ => persistent
  | .arrDecl _ _ _ _ persistent => persistent
  | .blockDecl _ members => hasPrstNodes members
  | .funcDecl _ _ _ _ body => hasPrstNodes body
  | .ifStmt _ thn none => hasPrstNodes thn
  | .ifStmt _ thn (some els) => hasPrstNodes thn || hasPrstNodes els
  | .whileStmt _ body => hasPrstNodes body
  | .forStmt _ _ _ _ body => hasPrstNodes body
  | .danger body => hasPrstNodes body
  | _ => false

def hasPrstNodes : List Stmt → Bool
  | [] => false
  | s :: rest => hasPrstNode s || hasPrstNodes rest

end

/-- `resolver_has_prst`: one `prst` anywhere puts the whole program in project mode. -/
def resolverHasPrst (program : List Stmt) : Bool := hasPrstNodes program

end Fluxa
