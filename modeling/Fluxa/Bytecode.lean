import Fluxa.Value

/-! The bytecode compiler (`bytecode.c`). Variables live in the registers of their slots and
temporaries from register 128 on. Compilation gives up as soon as one node is not supported, which is
`none` here; the source goes on for a few instructions and throws the chunk away. An instruction
carries the constants it refers to, and the chunk counts them, since the table holds at most 128. -/

namespace Fluxa

inductive Instr where
  | loadk (a : ℕ) (v : Value)
  | loadkStr (a : ℕ) (s : String)
  | move (a b : ℕ)
  | moveStr (a b : ℕ)
  | dropStr (a : ℕ)
  | binary (op : BinOp) (a b c : ℕ)
  | not (a b : ℕ)
  | truthy (a b : ℕ)
  | jumpIfFalse (a target : ℕ)
  | jump (target : ℕ)
  | ret
  | callMethod (a : ℕ) (owner method : Ident) (isKey : Bool) (first argc : ℕ)
  | callFunc (a : ℕ) (name : Ident) (first argc : ℕ)
  | getField (a : ℕ) (owner field : Ident)
  | getFieldV (a : ℕ) (owner field : Ident)
  | setField (a : ℕ) (owner field : Ident)
  | getIndex (a : ℕ) (name : Ident) (index : ℕ) (off : Option ℕ)
  | prepIndex (off : Option ℕ) (name : Ident) (index target : ℕ)
  | setIndex (a : ℕ) (name : Ident) (index : ℕ) (off : Option ℕ)
  | retVal (a : ℕ)
  | retNil

/-- `chunk_patch` only ever meets an instruction with a jump target. -/
def Instr.withTarget (t : ℕ) : Instr → Instr
  | .jumpIfFalse a _ => .jumpIfFalse a t
  | .jump _ => .jump t
  | .prepIndex off name index _ => .prepIndex off name index t
  | i => i

def chunkMaxConst : ℕ := 128

def chunkMaxReg : ℕ := 512

/-- The first temporary register. -/
def firstTemp : ℕ := 128

structure Chunk where
  code : List Instr
  constCount : ℕ
  nextReg : ℕ
  peakReg : ℕ
  maxSlot : ℕ
  stringRegs : ℕ → Bool

def Chunk.init : Chunk := ⟨[], 0, firstTemp, firstTemp, 0, fun _ => false⟩

/-- What the compiler asks the runtime (`vm_indexable_cb_t`, `vm_probe_cb_t` and the two Block
registries). `ownerFn` tells a function body, which is kept for later calls, from a loop. -/
structure Probe where
  ownerFn : Bool
  indexable : Ident → Option ℕ → Bool
  bareField : Ident → Option (Ident × Bool)
  fieldIsValue : Ident → Ident → Bool
  neverString : Option Ident → Ident → Bool
  isBlock : Ident → Bool

abbrev CompileM := StateT Chunk Option

section Makes

variable {α β : Type} {c c' : Chunk}

theorem makes_bind {m : CompileM α} {f : α → CompileM β} {b : β} :
    (m >>= f) c = some (b, c') ↔ ∃ a c₁, m c = some (a, c₁) ∧ f a c₁ = some (b, c') := by
  change (m c).bind (fun p => f p.1 p.2) = _ ↔ _
  rcases m c with _ | ⟨a, c₁⟩
  · simp
  · simp only [Option.bind_some, Option.some.injEq, Prod.mk.injEq]
    constructor
    · exact fun h => ⟨a, c₁, ⟨rfl, rfl⟩, h⟩
    · rintro ⟨_, _, ⟨rfl, rfl⟩, h⟩
      exact h

theorem makes_pure {a b : α} : (pure a : CompileM α) c = some (b, c') ↔ b = a ∧ c' = c := by
  change some (a, c) = _ ↔ _
  simp [eq_comm]

theorem makes_get {a : Chunk} : (get : CompileM Chunk) c = some (a, c') ↔ a = c ∧ c' = c := by
  change some (c, c) = _ ↔ _
  simp [eq_comm]

end Makes

namespace CompileM

def addConst : CompileM Unit := do
  let c ← get
  if chunkMaxConst ≤ c.constCount then failure
  set { c with constCount := c.constCount + 1 }

/-- The index of the emitted instruction is returned. -/
def emit (i : Instr) : CompileM ℕ := do
  let c ← get
  set { c with code := c.code ++ [i] }
  pure c.code.length

/-- Sets the target of the jump at `idx` to the next instruction. -/
def patch (idx : ℕ) : CompileM Unit :=
  modify fun c => { c with code := c.code.modify idx (Instr.withTarget c.code.length) }

def reserveRegs (count : ℕ) : CompileM ℕ := do
  let c ← get
  if 255 < count ∨ chunkMaxReg < c.nextReg + count then failure
  set { c with nextReg := c.nextReg + count, peakReg := max c.peakReg (c.nextReg + count) }
  pure c.nextReg

def allocReg : CompileM ℕ := do
  let c ← get
  if chunkMaxReg ≤ c.nextReg then failure
  set { c with nextReg := c.nextReg + 1, peakReg := max c.peakReg (c.nextReg + 1) }
  pure c.nextReg

def setNextReg (r : ℕ) : CompileM Unit := modify fun c => { c with nextReg := r }

def noteSlot (off : ℕ) : CompileM Unit := modify fun c => { c with maxSlot := max c.maxSlot (off + 1) }

def noteSlot? : Option ℕ → CompileM Unit
  | some off => noteSlot off
  | none => pure ()

def markStringReg (r : ℕ) : CompileM Unit := do
  if chunkMaxReg ≤ r then failure
  modify fun c => { c with stringRegs := fun i => i == r || c.stringRegs i }

def emitStringDrops (first stop : ℕ) : CompileM Unit :=
  modify fun c =>
    let stop := min stop chunkMaxReg
    let marked := (List.range' first (stop - first)).filter c.stringRegs
    { c with
      code := c.code ++ marked.map .dropStr
      stringRegs := fun i => c.stringRegs i && !(decide (first ≤ i) && decide (i < stop)) }

end CompileM

open CompileM

def exprMayString : Expr → Bool
  | .stringLit _ | .identifier _ _ | .memberAccess _ _ | .memberCall _ _ _ | .funcCall _ _ => true
  | _ => false

/-- `compile_literal_into`; `false` when the expression is no literal. -/
def compileLiteralInto (dst : ℕ) : Expr → CompileM Bool
  | .intLit i => do addConst; let _ ← emit (.loadk dst (.int i)); pure true
  | .floatLit d => do addConst; let _ ← emit (.loadk dst (.float d)); pure true
  | .boolLit b => do addConst; let _ ← emit (.loadk dst (.bool b)); pure true
  | .stringLit s => do addConst; markStringReg dst; let _ ← emit (.loadkStr dst s); pure true
  | _ => pure false

/-- A field read into a fresh register, off the string band when the declared type allows. -/
def compileFieldRead (owner field : Ident) (isValue : Bool) : CompileM ℕ := do
  addConst
  addConst
  let dst ← allocReg
  if isValue then
    let _ ← emit (.getFieldV dst owner field)
  else
    markStringReg dst
    let _ ← emit (.getField dst owner field)
  pure dst

def moveInto (e : Expr) (dst src : ℕ) : CompileM Unit := do
  if exprMayString e then
    let _ ← emit (.moveStr dst src)
  else
    let _ ← emit (.move dst src)

section Compile

variable (p : Probe)

mutual

def compileExpr : Expr → CompileM ℕ
  | .intLit i => do
      addConst
      let dst ← allocReg
      let _ ← emit (.loadk dst (.int i))
      pure dst
  | .floatLit d => do
      addConst
      let dst ← allocReg
      let _ ← emit (.loadk dst (.float d))
      pure dst
  | .boolLit b => do
      addConst
      let dst ← allocReg
      let _ ← emit (.loadk dst (.bool b))
      pure dst
  | .stringLit s => do
      addConst
      let dst ← allocReg
      markStringReg dst
      let _ ← emit (.loadkStr dst s)
      pure dst
  | .identifier _ ⟨some off, _⟩ => do
      noteSlot off
      pure off
  | .identifier name ⟨none, _⟩ =>
    match if p.ownerFn then none else p.bareField name with
    | some (owner, isValue) => compileFieldRead owner name isValue
    | none => failure
  | .arrAccess name ref index => do
      if name = "err" ∨ !p.indexable name ref.off then failure
      noteSlot? ref.off
      let idx ← compileExpr index
      addConst
      let dst ← allocReg
      let _ ← emit (.getIndex dst name idx ref.off)
      pure dst
  | .not e => do
      let src ← compileExpr e
      let dst ← allocReg
      let _ ← emit (.not dst src)
      pure dst
  | .logic op l r => do
      let lr ← compileExpr l
      let tl ← allocReg
      let _ ← emit (.truthy tl lr)
      -- one destination for both arms
      let dst ← allocReg
      let _ ← emit (.move dst tl)
      let jf ← emit (.jumpIfFalse tl 0)
      match op with
      | .and => do
          let rr ← compileExpr r
          let _ ← emit (.truthy dst rr)
          patch jf
      | .or => do
          let jmp ← emit (.jump 0)
          patch jf
          let rr ← compileExpr r
          let _ ← emit (.truthy dst rr)
          patch jmp
      pure dst
  | .binary op l r => do
      let r1 ← compileExpr l
      let r2 ← compileExpr r
      let dst ← allocReg
      let _ ← emit (.binary op dst r1 r2)
      pure dst
  | .memberAccess owner field => compileFieldRead owner field (p.fieldIsValue owner field)
  | .memberCall owner method args => do
      addConst
      addConst
      let first ← reserveRegs args.length
      let base := first + args.length
      compileArgs base first args
      setNextReg base
      let dst ← allocReg
      if !p.neverString (some owner) method then markStringReg dst
      let _ ← emit (.callMethod dst owner method (p.isBlock owner) first args.length)
      pure dst
  | .funcCall name args => do
      addConst
      let first ← reserveRegs args.length
      let base := first + args.length
      compileArgs base first args
      setNextReg base
      let dst ← allocReg
      if !p.neverString none name then markStringReg dst
      let _ ← emit (.callFunc dst name first args.length)
      pure dst
  | .dynLit _ => failure
  | .indexedMemberAccess _ _ _ _ => failure
  | .indexedMemberCall _ _ _ _ _ => failure

/-- Fills the argument window from register `slot` on, with temporaries from `base` on. -/
def compileArgs (base slot : ℕ) : List Expr → CompileM Unit
  | [] => pure ()
  | e :: es => do
      setNextReg base
      if !(← compileLiteralInto slot e) then
        let ar ← compileExpr e
        if ar ≠ slot then
          moveInto e slot ar
          if exprMayString e then markStringReg slot
      compileArgs base (slot + 1) es

end

/-- The store of `NODE_VAR_DECL` and `NODE_ASSIGN`: a declared type plays no part, nor does `prst`. -/
def compileStore (name : Ident) (value : Expr) (off : Option ℕ) : CompileM Unit := do
  let src ← compileExpr p value
  match off with
  | some off =>
    noteSlot off
    moveInto value off src
  | none =>
    match if p.ownerFn then none else p.bareField name with
    | some (owner, _) =>
      addConst
      addConst
      let _ ← emit (.setField src owner name)
    | none => failure

/-- The jump over a body when its condition fails; strings of the condition are dropped behind it. -/
def compileCondition (cond : Expr) (start : ℕ) : CompileM ℕ := do
  let reg ← compileExpr p cond
  let jf ← emit (.jumpIfFalse reg 0)
  let c ← get
  if !c.stringRegs reg then emitStringDrops start c.nextReg
  setNextReg start
  pure jf

/-- What every case of `compile_node` ends with. -/
def finishNode (start : ℕ) : CompileM Unit := do
  let c ← get
  emitStringDrops start c.nextReg
  setNextReg start

mutual

def compileNode : Stmt → CompileM Unit
  | .varDecl _ name init _ ref => do
      let start := (← get).nextReg
      compileStore p name init ref.off
      finishNode start
  | .assign name value ref => do
      let start := (← get).nextReg
      compileStore p name value ref.off
      finishNode start
  | .ifStmt cond thn els => do
      let start := (← get).nextReg
      let jf ← compileCondition p cond start
      compileNodes thn
      match els with
      | some els => do
          let jmp ← emit (.jump 0)
          patch jf
          setNextReg start
          compileNodes els
          patch jmp
      | none => patch jf
      finishNode start
  | .whileStmt cond body => do
      let start := (← get).nextReg
      let startIp := (← get).code.length
      let jf ← compileCondition p cond start
      compileNodes body
      let _ ← emit (.jump startIp)
      patch jf
      finishNode start
  | .memberAssign owner field value => do
      let start := (← get).nextReg
      addConst
      addConst
      let src ← compileExpr p value
      let _ ← emit (.setField src owner field)
      finishNode start
  | .arrAssign name ref index value => do
      let start := (← get).nextReg
      if !p.indexable name ref.off then failure
      noteSlot? ref.off
      let idx ← compileExpr p index
      addConst
      let prep ← emit (.prepIndex ref.off name idx 0)
      let v ← compileExpr p value
      let _ ← emit (.setIndex v name idx ref.off)
      patch prep
      finishNode start
  | .exprStmt (.funcCall name args) => do
      let start := (← get).nextReg
      let _ ← compileExpr p (.funcCall name args)
      finishNode start
  | .exprStmt (.memberCall owner method args) => do
      let start := (← get).nextReg
      let _ ← compileExpr p (.memberCall owner method args)
      finishNode start
  | .returnStmt (some value) => do
      let start := (← get).nextReg
      let r ← compileExpr p value
      let _ ← emit (.retVal r)
      finishNode start
  | .returnStmt none => do
      let start := (← get).nextReg
      let _ ← emit .retNil
      finishNode start
  | _ => failure

def compileNodes : List Stmt → CompileM Unit
  | [] => pure ()
  | s :: rest => do
      compileNode s
      compileNodes rest

end

/-- `chunk_compile_loop`. -/
def chunkCompileLoop (cond : Expr) (body : List Stmt) : Option Chunk := do
  let (_, c) ← (compileNode p (.whileStmt cond body)).run .init
  some { c with nextReg := c.peakReg, code := c.code ++ [.ret] }

/-- `chunk_compile_fn`. Parameters are in registers from 0 on. -/
def chunkCompileFn (fn : FuncDecl) : Option Chunk := do
  let (_, c) ← (compileNodes p fn.body).run .init
  some { c with nextReg := c.peakReg, code := c.code ++ [.retNil] }

end Compile

end Fluxa
