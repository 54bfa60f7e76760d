import Fluxa.LoopSpec

/-! The code of a loop. The compiler appends to a chunk and patches jumps behind its back; what it leaves
is described here without either, as the code of a node at a given position: `pc` is the position, `nr`
the first register that is free before and `nr'` the one that is free after it. -/

namespace Fluxa.Loop

open CompileM

/-- Strings are dropped from the registers of the node only. -/
def Drops (start : ℕ) (code : List Instr) : Prop := ∀ i ∈ code, ∃ r, start ≤ r ∧ i = .dropStr r

/-- The code of an expression, whose value is in register `r`. -/
inductive ExprCode : Expr → (pc nr : ℕ) → List Instr → (r nr' : ℕ) → Prop
  | intLit (i : Int64) (pc nr : ℕ) : ExprCode (.intLit i) pc nr [.loadk nr (.int i)] nr (nr + 1)
  | floatLit (d : Binary64.Double) (pc nr : ℕ) :
      ExprCode (.floatLit d) pc nr [.loadk nr (.float d)] nr (nr + 1)
  | boolLit (b : Bool) (pc nr : ℕ) : ExprCode (.boolLit b) pc nr [.loadk nr (.bool b)] nr (nr + 1)
  | stringLit (s : String) (pc nr : ℕ) : ExprCode (.stringLit s) pc nr [.loadkStr nr s] nr (nr + 1)
  | slot (x : Ident) (off : ℕ) (warm : Bool) (pc nr : ℕ) :
      ExprCode (.identifier x ⟨some off, warm⟩) pc nr [] off nr
  | not {e : Expr} {pc nr r n : ℕ} {A : List Instr} (he : ExprCode e pc nr A r n) :
      ExprCode (.not e) pc nr (A ++ [.not n r]) n (n + 1)
  | binary {op : BinOp} {e f : Expr} {pc nr r r' n n' : ℕ} {A B : List Instr} (he : ExprCode e pc nr A r n)
      (hf : ExprCode f (pc + A.length) n B r' n') :
      ExprCode (.binary op e f) pc nr (A ++ B ++ [.binary op n' r r']) n' (n' + 1)
  | and {e f : Expr} {pc nr r r' n n' : ℕ} {A B : List Instr} (he : ExprCode e pc nr A r n)
      (hf : ExprCode f (pc + A.length + 3) (n + 2) B r' n') :
      ExprCode (.logic .and e f) pc nr
        (A ++ [.truthy n r, .move (n + 1) n, .jumpIfFalse n (pc + A.length + 3 + B.length + 1)] ++ B ++
          [.truthy (n + 1) r']) (n + 1) n'
  | or {e f : Expr} {pc nr r r' n n' : ℕ} {A B : List Instr} (he : ExprCode e pc nr A r n)
      (hf : ExprCode f (pc + A.length + 4) (n + 2) B r' n') :
      ExprCode (.logic .or e f) pc nr
        (A ++ [.truthy n r, .move (n + 1) n, .jumpIfFalse n (pc + A.length + 4),
          .jump (pc + A.length + 4 + B.length + 1)] ++ B ++ [.truthy (n + 1) r']) (n + 1) n'

/-- The move at the end of a store, in one of its two forms. -/
def IsMove (a b : ℕ) (i : Instr) : Prop := i = .move a b ∨ i = .moveStr a b

/-- The code of statements and blocks, whose temporaries begin at `start`. -/
inductive StmtCode (start : ℕ) : Proc → ℕ → List Instr → Prop
  | nil (pc : ℕ) : StmtCode start (.block []) pc []
  | cons {s : Stmt} {rest : List Stmt} {pc : ℕ} {A B : List Instr} (hs : StmtCode start (.stmt s) pc A)
      (hrest : StmtCode start (.block rest) (pc + A.length) B) :
      StmtCode start (.block (s :: rest)) pc (A ++ B)
  | varDecl {t : TypeName} {x : Ident} {e : Expr} {persistent warm : Bool} {off pc r n : ℕ}
      {A D : List Instr} {i : Instr} (he : ExprCode e pc start A r n) (hi : IsMove off r i)
      (hD : Drops start D) :
      StmtCode start (.stmt (.varDecl t x e persistent ⟨some off, warm⟩)) pc (A ++ [i] ++ D)
  | assign {x : Ident} {e : Expr} {warm : Bool} {off pc r n : ℕ} {A D : List Instr} {i : Instr}
      (he : ExprCode e pc start A r n) (hi : IsMove off r i) (hD : Drops start D) :
      StmtCode start (.stmt (.assign x e ⟨some off, warm⟩)) pc (A ++ [i] ++ D)
  | ifThen {cond : Expr} {thn : List Stmt} {pc r n : ℕ} {A D B D' : List Instr}
      (he : ExprCode cond pc start A r n) (hD : Drops start D)
      (hB : StmtCode start (.block thn) (pc + A.length + 1 + D.length) B) (hD' : Drops start D') :
      StmtCode start (.stmt (.ifStmt cond thn none)) pc
        (A ++ [.jumpIfFalse r (pc + A.length + 1 + D.length + B.length)] ++ D ++ B ++ D')
  | ifElse {cond : Expr} {thn els : List Stmt} {pc r n : ℕ} {A D B E D' : List Instr}
      (he : ExprCode cond pc start A r n) (hD : Drops start D)
      (hB : StmtCode start (.block thn) (pc + A.length + 1 + D.length) B)
      (hE : StmtCode start (.block els) (pc + A.length + 1 + D.length + B.length + 1) E)
      (hD' : Drops start D') :
      StmtCode start (.stmt (.ifStmt cond thn (some els))) pc
        (A ++ [.jumpIfFalse r (pc + A.length + 1 + D.length + B.length + 1)] ++ D ++ B ++
          [.jump (pc + A.length + 1 + D.length + B.length + 1 + E.length)] ++ E ++ D')
  | while {cond : Expr} {body : List Stmt} {pc r n : ℕ} {A D B D' : List Instr}
      (he : ExprCode cond pc start A r n) (hD : Drops start D)
      (hB : StmtCode start (.block body) (pc + A.length + 1 + D.length) B) (hD' : Drops start D') :
      StmtCode start (.stmt (.whileStmt cond body)) pc
        (A ++ [.jumpIfFalse r (pc + A.length + 1 + D.length + B.length + 1)] ++ D ++ B ++ [.jump pc] ++ D')

section Primitives

variable {α β : Type} {c c' : Chunk}

theorem modify_length_append (l : List α) (x : α) (rest : List α) (f : α → α) :
    (l ++ x :: rest).modify l.length f = l ++ f x :: rest := by
  induction l with
  | nil => rfl
  | cons y l ih => simpa using ih

/-- The compiler appended `A` and left `n` as the next register. -/
structure Grows (c c' : Chunk) (A : List Instr) (n : ℕ) : Prop where
  code : c'.code = c.code ++ A
  nextReg : c'.nextReg = n
  peak : c.peakReg ≤ c'.peakReg

namespace Grows

variable {c₁ c₂ : Chunk} {A B : List Instr} {n n' : ℕ}

theorem trans (h : Grows c c₁ A n) (h' : Grows c₁ c₂ B n') : Grows c c₂ (A ++ B) n' :=
  ⟨by rw [h'.code, h.code, List.append_assoc], h'.nextReg, h.peak.trans h'.peak⟩

theorem length (h : Grows c c₁ A n) : c₁.code.length = c.code.length + A.length := by
  rw [h.code, List.length_append]

variable {u : Unit} {i : Instr} {k r : ℕ}

theorem emit (h : emit i c = some (k, c')) : k = c.code.length ∧ Grows c c' [i] c.nextReg := by
  cases h
  exact ⟨rfl, rfl, rfl, le_rfl⟩

theorem addConst (h : addConst c = some (u, c')) : Grows c c' [] c.nextReg := by
  unfold CompileM.addConst at h
  change (if chunkMaxConst ≤ c.constCount then _ else _ : CompileM Unit) c = _ at h
  split at h
  · exact nomatch (h : none = some _)
  · cases h
    exact ⟨by simp, rfl, le_rfl⟩

theorem allocReg (h : allocReg c = some (r, c')) : r = c.nextReg ∧ Grows c c' [] (c.nextReg + 1) := by
  unfold CompileM.allocReg at h
  change (if chunkMaxReg ≤ c.nextReg then _ else _ : CompileM ℕ) c = _ at h
  split at h
  · exact nomatch (h : none = some _)
  · cases h
    exact ⟨rfl, by simp, rfl, Nat.le_max_left _ _⟩

theorem markStringReg (h : markStringReg r c = some (u, c')) : Grows c c' [] c.nextReg := by
  unfold CompileM.markStringReg at h
  split at h
  · exact nomatch (h : none = some _)
  · cases h
    exact ⟨by simp, rfl, le_rfl⟩

theorem setNextReg (h : setNextReg r c = some (u, c')) : Grows c c' [] r := by
  cases h
  exact ⟨by simp, rfl, le_rfl⟩

theorem noteSlot {off : ℕ} (h : noteSlot off c = some (u, c')) : Grows c c' [] c.nextReg := by
  cases h
  exact ⟨by simp, rfl, le_rfl⟩

theorem emitStringDrops {first stop : ℕ}
    (h : emitStringDrops first stop c = some (u, c')) :
    ∃ D, Drops first D ∧ Grows c c' D c.nextReg := by
  cases h
  refine ⟨_, ?_, rfl, rfl, le_rfl⟩
  intro i hi
  obtain ⟨r, hr, rfl⟩ := List.mem_map.mp hi
  obtain ⟨hr, -⟩ := List.mem_filter.mp hr
  exact ⟨r, (List.mem_range'_1.mp hr).1, rfl⟩

theorem thenEmit (g : Grows c c₁ A n) (h : CompileM.emit i c₁ = some (k, c₂)) :
    k = c.code.length + A.length ∧ Grows c c₂ (A ++ [i]) n := by
  obtain ⟨rfl, g'⟩ := Grows.emit h
  exact ⟨g.length, g.nextReg ▸ g.trans g'⟩

theorem patch (h : Grows c c₁ (A ++ [i] ++ B) n)
    (hk : k = c.code.length + A.length) (hp : patch k c₁ = some (u, c₂)) :
    Grows c c₂ (A ++ [i.withTarget (c.code.length + A.length + 1 + B.length)] ++ B) n := by
  cases hp
  subst hk
  refine ⟨?_, h.nextReg, h.peak⟩
  have hlen : c₁.code.length = c.code.length + A.length + 1 + B.length := by
    rw [h.length]
    simp
    omega
  have hcode : c₁.code = (c.code ++ A) ++ i :: B := by rw [h.code]; simp
  change c₁.code.modify _ (Instr.withTarget c₁.code.length) = _
  rw [hlen, hcode, ← List.length_append, modify_length_append]
  simp

end Grows

end Primitives

section Expressions

variable {p : Probe}

private theorem grows_const {c c₁ c₂ c₃ : Chunk} {u : Unit} {r k : ℕ} {i : Instr}
    (h₁ : addConst c = some (u, c₁)) (h₂ : allocReg c₁ = some (r, c₂))
    (h₃ : emit i c₂ = some (k, c₃)) : r = c.nextReg ∧ Grows c c₃ [i] (c.nextReg + 1) := by
  have g₁ := Grows.addConst h₁
  obtain ⟨rfl, g₂⟩ := Grows.allocReg h₂
  obtain ⟨-, g₃⟩ := Grows.emit h₃
  have g := (g₁.trans g₂).trans g₃
  rw [g₂.nextReg, g₁.nextReg] at g
  exact ⟨g₁.nextReg, g⟩

private theorem grows_fresh {c c₁ c₂ c₃ : Chunk} {A : List Instr} {n r k : ℕ} {i : Instr} (g : Grows c c₁ A n)
    (h₂ : allocReg c₁ = some (r, c₂)) (h₃ : emit i c₂ = some (k, c₃)) :
    r = n ∧ k = c.code.length + A.length ∧ Grows c c₃ (A ++ [i]) (n + 1) := by
  obtain ⟨rfl, g₂⟩ := Grows.allocReg h₂
  have g₂ := g.trans g₂
  rw [List.append_nil, g.nextReg] at g₂
  exact ⟨g.nextReg, g₂.thenEmit h₃⟩

theorem compileExpr_code {e : Expr} (he : InExpr e) {c c' : Chunk} {r : ℕ}
    (h : compileExpr p e c = some (r, c')) :
    ∃ A n, Grows c c' A n ∧ ExprCode e c.code.length c.nextReg A r n := by
  induction e generalizing c c' r with
  | intLit | floatLit | boolLit =>
    simp only [compileExpr, makes_bind, makes_pure] at h
    obtain ⟨_, c₁, h₁, _, c₂, h₂, _, c₃, h₃, rfl, rfl⟩ := h
    obtain ⟨rfl, g⟩ := grows_const h₁ h₂ h₃
    exact ⟨_, _, g, by constructor⟩
  | stringLit s =>
    simp only [compileExpr, makes_bind, makes_pure] at h
    obtain ⟨_, c₁, h₁, r, c₂, h₂, _, c₃, h₃, _, c₄, h₄, rfl, rfl⟩ := h
    have g₁ := Grows.addConst h₁
    obtain ⟨rfl, g₂⟩ := Grows.allocReg h₂
    have g₃ := Grows.markStringReg h₃
    obtain ⟨-, g₄⟩ := Grows.emit h₄
    have g := ((g₁.trans g₂).trans g₃).trans g₄
    rw [g₃.nextReg, g₂.nextReg, g₁.nextReg] at g
    rw [g₁.nextReg]
    exact ⟨_, _, g, .stringLit s _ _⟩
  | identifier x ref =>
    obtain ⟨-, -, off, -, href⟩ := he
    obtain ⟨_, warm⟩ := ref
    subst href
    simp only [compileExpr, makes_bind, makes_pure] at h
    obtain ⟨_, c₁, h₁, rfl, rfl⟩ := h
    exact ⟨[], _, Grows.noteSlot h₁, .slot x _ warm _ _⟩
  | not e ih =>
    simp only [compileExpr, makes_bind, makes_pure] at h
    obtain ⟨src, c₁, h₁, _, c₂, h₂, _, c₃, h₃, rfl, rfl⟩ := h
    obtain ⟨A, n, g, hA⟩ := ih he h₁
    obtain ⟨rfl, -, g'⟩ := grows_fresh g h₂ h₃
    exact ⟨_, _, g', .not hA⟩
  | binary op e f ihe ihf =>
    simp only [compileExpr, makes_bind, makes_pure] at h
    obtain ⟨r₁, c₁, h₁, r₂, c₂, h₂, _, c₃, h₃, _, c₄, h₄, rfl, rfl⟩ := h
    obtain ⟨A, n, g, hA⟩ := ihe he.1 h₁
    obtain ⟨B, n', g', hB⟩ := ihf he.2 h₂
    rw [g.length, g.nextReg] at hB
    obtain ⟨rfl, -, g''⟩ := grows_fresh (g.trans g') h₃ h₄
    exact ⟨_, _, g'', .binary hA hB⟩
  | logic op e f ihe ihf =>
    cases op with
    | and =>
      simp only [compileExpr, makes_bind, makes_pure] at h
      obtain ⟨lr, c₁, h₁, _, c₂, h₂, _, c₃, h₃, _, c₄, h₄, _, c₅, h₅, jf, c₆, h₆, rr, c₇, h₇,
        _, c₈, h₈, _, c₉, h₉, rfl, rfl⟩ := h
      obtain ⟨A, n, g, hA⟩ := ihe he.1 h₁
      obtain ⟨rfl, -, g⟩ := grows_fresh g h₂ h₃
      obtain ⟨rfl, -, g⟩ := grows_fresh g h₄ h₅
      obtain ⟨hjf, g⟩ := g.thenEmit h₆
      obtain ⟨B, n', g', hB⟩ := ihf he.2 h₇
      rw [g.length, g.nextReg] at hB
      obtain ⟨-, g⟩ := (g.trans g').thenEmit h₈
      rw [List.append_assoc _ B] at g
      have g := g.patch hjf h₉
      refine ⟨_, n', ?_, .and hA (by simpa [Nat.add_assoc] using hB)⟩
      simpa [Instr.withTarget, Nat.add_assoc, Nat.add_comm, Nat.add_left_comm] using g
    | or =>
      simp only [compileExpr, makes_bind, makes_pure] at h
      obtain ⟨lr, c₁, h₁, _, c₂, h₂, _, c₃, h₃, _, c₄, h₄, _, c₅, h₅, jf, c₆, h₆, jmp, c₇, h₇,
        _, c₈, h₈, rr, c₉, h₉, _, c₁₀, h₁₀, _, c₁₁, h₁₁, rfl, rfl⟩ := h
      obtain ⟨A, n, g, hA⟩ := ihe he.1 h₁
      obtain ⟨rfl, -, g⟩ := grows_fresh g h₂ h₃
      obtain ⟨rfl, -, g⟩ := grows_fresh g h₄ h₅
      obtain ⟨hjf, g⟩ := g.thenEmit h₆
      obtain ⟨hjmp, g⟩ := g.thenEmit h₇
      have g := g.patch hjf h₈
      obtain ⟨B, n', g', hB⟩ := ihf he.2 h₉
      rw [g.length, g.nextReg] at hB
      obtain ⟨-, g⟩ := (g.trans g').thenEmit h₁₀
      rw [List.append_assoc _ B] at g
      have g := g.patch (by simpa using hjmp) h₁₁
      refine ⟨_, n', ?_, .or hA (by simpa [Nat.add_assoc] using hB)⟩
      simpa [Instr.withTarget, Nat.add_assoc, Nat.add_comm, Nat.add_left_comm] using g
  | funcCall | memberAccess | memberCall | arrAccess | dynLit | indexedMemberAccess | indexedMemberCall => exact he.elim

end Expressions

section Statements

variable {p : Probe}

variable {c : Chunk} {cond : Expr} {A : List Instr} {u : Unit} {body : List Stmt}

theorem Grows.finishNode {c₁ c₂ : Chunk} {n start : ℕ} (g : Grows c c₁ A n)
    (h : Fluxa.finishNode start c₁ = some (u, c₂)) : ∃ D, Drops start D ∧ Grows c c₂ (A ++ D) start := by
  simp only [Fluxa.finishNode, makes_bind, makes_get] at h
  obtain ⟨_, _, ⟨rfl, rfl⟩, _, c₃, h₁, h₂⟩ := h
  obtain ⟨D, hD, g₁⟩ := Grows.emitStringDrops h₁
  have g' := (g.trans g₁).trans (Grows.setNextReg h₂)
  exact ⟨D, hD, by rwa [List.append_nil] at g'⟩

theorem Grows.moveInto {c₁ c₂ : Chunk} {n a b : ℕ} {e : Expr} (g : Grows c c₁ A n)
    (h : Fluxa.moveInto e a b c₁ = some (u, c₂)) : ∃ i, IsMove a b i ∧ Grows c c₂ (A ++ [i]) n := by
  simp only [Fluxa.moveInto] at h
  split at h <;> simp only [makes_bind, makes_pure] at h <;> obtain ⟨k, _, h₁, -, rfl⟩ := h
  · exact ⟨_, .inr rfl, (g.thenEmit h₁).2⟩
  · exact ⟨_, .inl rfl, (g.thenEmit h₁).2⟩

theorem compileStore_code {e : Expr} (he : InExpr e) {x : Ident} {off : ℕ} {c' : Chunk}
    (h : compileStore p x e (some off) c = some (u, c')) : ∃ A r n i, Grows c c' (A ++ [i]) n ∧
      IsMove off r i ∧ ExprCode e c.code.length c.nextReg A r n := by
  simp only [compileStore, makes_bind] at h
  obtain ⟨src, c₁, h₁, _, c₂, h₂, h₃⟩ := h
  obtain ⟨A, n, g, hA⟩ := compileExpr_code he h₁
  have g' := g.trans (Grows.noteSlot h₂)
  rw [List.append_nil, g.nextReg] at g'
  obtain ⟨i, hi, g'⟩ := g'.moveInto h₃
  exact ⟨A, src, n, i, g', hi, hA⟩

theorem compileCondition_code (hcond : InExpr cond) {c' : Chunk} {jf : ℕ}
    (h : compileCondition p cond c.nextReg c = some (jf, c')) : ∃ A r n D,
      Grows c c' (A ++ [.jumpIfFalse r 0] ++ D) c.nextReg ∧ jf = c.code.length + A.length ∧
      ExprCode cond c.code.length c.nextReg A r n ∧ Drops c.nextReg D := by
  simp only [compileCondition, makes_bind, makes_get] at h
  obtain ⟨r, c₁, h₁, _, c₂, h₂, _, _, ⟨rfl, rfl⟩, h⟩ := h
  obtain ⟨A, n, g, hA⟩ := compileExpr_code hcond h₁
  obtain ⟨hjf, g⟩ := g.thenEmit h₂
  split at h
  · simp only [makes_bind, makes_pure] at h
    obtain ⟨_, c₃, h₃, _, c₄, h₄, rfl, rfl⟩ := h
    obtain ⟨D, hD, g₃⟩ := Grows.emitStringDrops h₃
    have g' := (g.trans g₃).trans (Grows.setNextReg h₄)
    rw [List.append_nil] at g'
    exact ⟨A, r, n, D, g', hjf, hA, hD⟩
  · simp only [makes_bind, makes_pure] at h
    obtain ⟨_, c₄, h₄, rfl, rfl⟩ := h
    exact ⟨A, r, n, [], g.trans (Grows.setNextReg h₄), hjf, hA, by simp [Drops]⟩

theorem StmtCode.at {start pc pc' : ℕ} {i : Proc} (h : StmtCode start i pc A) (e : pc = pc') :
    StmtCode start i pc' A := e ▸ h

/-- The compiler lays a statement or a block out as described, and gives its registers back. -/
def Lays (m : CompileM Unit) (i : Proc) : Prop :=
  ∀ (c c' : Chunk) (u : Unit), m c = some (u, c') →
    ∃ A, Grows c c' A c.nextReg ∧ StmtCode c.nextReg i c.code.length A

theorem lays_block (hbody : ∀ s ∈ body, Lays (compileNode p s) (.stmt s)) :
    Lays (compileNodes p body) (.block body) := by
  intro c c' u h
  induction body generalizing c with
  | nil =>
    simp only [compileNodes, makes_pure] at h
    obtain ⟨-, rfl⟩ := h
    exact ⟨[], ⟨by simp, rfl, le_rfl⟩, .nil _⟩
  | cons s rest ih =>
    simp only [compileNodes, makes_bind] at h
    obtain ⟨_, c₁, h₁, h₂⟩ := h
    obtain ⟨A, g, hA⟩ := hbody s (by simp) c c₁ _ h₁
    obtain ⟨B, g', hB⟩ := ih (fun q hq => hbody q (List.mem_cons_of_mem s hq)) c₁ h₂
    rw [g.nextReg, g.length] at hB
    exact ⟨A ++ B, g.nextReg ▸ g.trans g', .cons hA hB⟩

theorem lays_while (hcond : InExpr cond)
    (hbody : Lays (compileNodes p body) (.block body)) :
    Lays (compileNode p (.whileStmt cond body)) (.stmt (.whileStmt cond body)) := by
  intro c c' u h
  simp only [compileNode, makes_bind, makes_get] at h
  obtain ⟨_, _, ⟨rfl, rfl⟩, _, _, ⟨rfl, rfl⟩, jf, c₁, h₁, _, c₂, h₂, _, c₃, h₃, _, c₄, h₄, h₅⟩ := h
  obtain ⟨A, r, n, D, g, hjf, hA, hD⟩ := compileCondition_code hcond h₁
  obtain ⟨B, g', hB⟩ := hbody c₁ c₂ _ h₂
  rw [g.length, g.nextReg] at hB
  rw [g.nextReg] at g'
  obtain ⟨-, g⟩ := (g.trans g').thenEmit h₃
  rw [List.append_assoc, List.append_assoc (A ++ _) D] at g
  obtain ⟨D', hD', g⟩ := (g.patch hjf h₄).finishNode h₅
  refine ⟨_, ?_, .while hA hD (hB.at (by simp; omega)) hD'⟩
  simpa [Instr.withTarget, Nat.add_assoc, Nat.add_comm, Nat.add_left_comm] using g

theorem lays_if {thn : List Stmt} {els : Option (List Stmt)} (hcond : InExpr cond)
    (hthn : Lays (compileNodes p thn) (.block thn))
    (hels : ∀ b ∈ els, Lays (compileNodes p b) (.block b)) :
    Lays (compileNode p (.ifStmt cond thn els)) (.stmt (.ifStmt cond thn els)) := by
  intro c c' u h
  cases els with
  | none =>
    simp only [compileNode, makes_bind, makes_get] at h
    obtain ⟨_, _, ⟨rfl, rfl⟩, jf, c₁, h₁, _, c₂, h₂, _, c₃, h₃, h₄⟩ := h
    obtain ⟨A, r, n, D, g, hjf, hA, hD⟩ := compileCondition_code hcond h₁
    obtain ⟨B, g', hB⟩ := hthn c₁ c₂ _ h₂
    rw [g.length, g.nextReg] at hB
    rw [g.nextReg] at g'
    have g := g.trans g'
    rw [List.append_assoc (A ++ _)] at g
    obtain ⟨D', hD', g⟩ := (g.patch hjf h₃).finishNode h₄
    refine ⟨_, ?_, .ifThen hA hD (hB.at (by simp; omega)) hD'⟩
    simpa [Instr.withTarget, Nat.add_assoc, Nat.add_comm, Nat.add_left_comm] using g
  | some els =>
    simp only [compileNode, makes_bind, makes_get] at h
    obtain ⟨_, _, ⟨rfl, rfl⟩, jf, c₁, h₁, _, c₂, h₂, jmp, c₃, h₃, _, c₄, h₄, _, c₅, h₅, _, c₆, h₆, _, c₇,
      h₇, h₈⟩ := h
    obtain ⟨A, r, n, D, g, hjf, hA, hD⟩ := compileCondition_code hcond h₁
    obtain ⟨B, g', hB⟩ := hthn c₁ c₂ _ h₂
    rw [g.length, g.nextReg] at hB
    rw [g.nextReg] at g'
    obtain ⟨hjmp, g⟩ := (g.trans g').thenEmit h₃
    rw [List.append_assoc, List.append_assoc (A ++ _) D] at g
    have g := (g.patch hjf h₄).trans (Grows.setNextReg h₅)
    rw [List.append_nil] at g
    obtain ⟨E, g', hE⟩ := hels els rfl c₅ c₆ _ h₆
    rw [g.length, g.nextReg] at hE
    rw [g.nextReg] at g'
    have g := g.trans g'
    rw [show ∀ i : Instr, (A ++ [i] ++ (D ++ (B ++ [.jump 0]))) ++ E =
      (A ++ [i] ++ D ++ B) ++ [.jump 0] ++ E by simp] at g
    obtain ⟨D', hD', g⟩ := (g.patch (by simpa using hjmp) h₇).finishNode h₈
    refine ⟨_, ?_, .ifElse hA hD (hB.at (by simp; omega)) (hE.at (by simp; omega)) hD'⟩
    simpa [Instr.withTarget, Nat.add_assoc, Nat.add_comm, Nat.add_left_comm] using g

/-- **The compiler lays statements out as described.** -/
theorem lays_stmt {s : Stmt} (hs : InStmt s) : Lays (compileNode p s) (.stmt s) := by
  induction s with
  | varDecl t x init persistent ref =>
    intro c c' u h
    obtain ⟨⟨off, -, href⟩, hinit⟩ := hs
    obtain ⟨_, warm⟩ := ref
    subst href
    simp only [compileNode, makes_bind, makes_get] at h
    obtain ⟨_, _, ⟨rfl, rfl⟩, _, c₁, h₁, h₂⟩ := h
    obtain ⟨A, r, n, i, g, hi, hA⟩ := compileStore_code hinit h₁
    obtain ⟨D, hD, g⟩ := g.finishNode h₂
    exact ⟨_, g, .varDecl hA hi hD⟩
  | assign x value ref =>
    intro c c' u h
    obtain ⟨⟨off, -, href⟩, hvalue⟩ := hs
    obtain ⟨_, warm⟩ := ref
    subst href
    simp only [compileNode, makes_bind, makes_get] at h
    obtain ⟨_, _, ⟨rfl, rfl⟩, _, c₁, h₁, h₂⟩ := h
    obtain ⟨A, r, n, i, g, hi, hA⟩ := compileStore_code hvalue h₁
    obtain ⟨D, hD, g⟩ := g.finishNode h₂
    exact ⟨_, g, .assign hA hi hD⟩
  | ifStmt cond thn els ihthn ihels =>
    obtain ⟨hcond, hthn, hels⟩ := inStmt_if.mp hs
    exact lays_if hcond (lays_block fun q hq => ihthn q hq (inStmts_iff.mp hthn q hq))
      fun b hb => lays_block fun q hq => ihels b hb q hq (inStmts_iff.mp (hels b hb) q hq)
  | whileStmt cond body ih =>
    exact lays_while hs.1 (lays_block fun q hq => ih q hq (inStmts_iff.mp hs.2 q hq))
  | forStmt | arrDecl | arrAssign | funcDecl | returnStmt | blockDecl | typeofInst | memberAssign | danger | free
  | importStd | exprStmt => exact hs.elim

theorem chunkCompileLoop_code (hloop : InStmt (.whileStmt cond body))
    {chunk : Chunk} (h : chunkCompileLoop p cond body = some chunk) : ∃ A, chunk.code = A ++ [.ret] ∧
      StmtCode firstTemp (.stmt (.whileStmt cond body)) 0 A ∧ firstTemp ≤ chunk.nextReg := by
  unfold chunkCompileLoop at h
  obtain ⟨⟨u, c⟩, hc, hchunk⟩ := Option.bind_eq_some_iff.mp h
  obtain ⟨A, g, hA⟩ := lays_stmt hloop .init c u hc
  obtain rfl := Option.some.inj hchunk
  exact ⟨A, by rw [g.code]; rfl, hA, g.peak⟩

end Statements

end Fluxa.Loop
