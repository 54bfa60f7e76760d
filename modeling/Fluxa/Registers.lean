import Fluxa.LoopCode
import Fluxa.Resolver

/-! The registers of compiled code, and its constants. Two numbers say what an expression takes from the band of
temporaries, `keep`, the registers it still holds when it is done, and `high`, the most it ever holds; both are
read off the tree alone. With them every instruction of a chunk names only slots of the source and registers of
the band `[firstTemp, firstTemp + high)`, and it writes a slot only where the source stores into it. The constants
are literals of the source, and none of them is a function. -/

namespace Fluxa

open CompileM Fluxa.Expr Instr

namespace Instr

def dest : Instr → Option ℕ
  | .loadk a _ | .loadkStr a _ | .move a _ | .moveStr a _ | .dropStr a | .binary _ a _ _ | .not a _
  | .truthy a _ | .callMethod a _ _ _ _ _ | .callFunc a _ _ _ | .getField a _ _ | .getFieldV a _ _
  | .getIndex a _ _ _ => some a
  | .jumpIfFalse _ _ | .jump _ | .ret | .setField _ _ _ | .prepIndex _ _ _ _ | .setIndex _ _ _ _ | .retVal _
  | .retNil => none

/-- The registers that an instruction reads or writes; a call has its window of arguments. The offset of an
array is no register operand, it is a hint that the callback compares with the size of the stack. -/
def operands : Instr → List ℕ
  | .loadk a _ | .loadkStr a _ | .dropStr a | .jumpIfFalse a _ | .getField a _ _ | .getFieldV a _ _
  | .setField a _ _ | .retVal a => [a]
  | .move a b | .moveStr a b | .not a b | .truthy a b | .getIndex a _ b _ | .setIndex a _ b _ => [a, b]
  | .binary _ a b c => [a, b, c]
  | .prepIndex _ _ b _ => [b]
  | .callMethod a _ _ _ first argc | .callFunc a _ first argc => a :: List.range' first argc
  | .jump _ | .ret | .retNil => []

/-- What the registers see of an instruction. -/
def use (i : Instr) : Option ℕ × List ℕ := (i.dest, i.operands)

@[simp] theorem use_withTarget (t : ℕ) (i : Instr) : (i.withTarget t).use = i.use := by
  cases i <;> rfl

/-- A literal is loaded, or something else is done. -/
def Literal : Instr → Prop
  | .loadk _ v => v.type.isPlain
  | _ => True

theorem Literal.withTarget {i : Instr} (h : i.Literal) (t : ℕ) : (i.withTarget t).Literal := by
  cases i <;> exact h

end Instr

def Chunk.Literal (c : Chunk) : Prop := ∀ i ∈ c.code, i.Literal

def Expr.isLiteral : Expr → Bool
  | .intLit _ | .floatLit _ | .boolLit _ | .stringLit _ => true
  | _ => false

/-- The temporaries that are taken when the expression is done. -/
def Expr.keep : Expr → ℕ
  | .intLit _ | .floatLit _ | .boolLit _ | .stringLit _ | .memberAccess _ _ => 1
  | .identifier _ ref => if ref.off.isSome then 0 else 1
  | .arrAccess _ _ index => index.keep + 1
  | .not e => e.keep + 1
  | .logic _ l r => l.keep + 2 + r.keep
  | .binary _ l r => l.keep + r.keep + 1
  | .memberCall _ _ args | .funcCall _ args => args.length + 1
  | .dynLit _ | .indexedMemberAccess _ _ _ _ | .indexedMemberCall _ _ _ _ _ => 0

mutual

/-- The most temporaries that are taken at once. -/
def Expr.high : Expr → ℕ
  | .intLit _ | .floatLit _ | .boolLit _ | .stringLit _ | .memberAccess _ _ => 1
  | .identifier _ ref => if ref.off.isSome then 0 else 1
  | .arrAccess _ _ index => max index.high (index.keep + 1)
  | .not e => max e.high (e.keep + 1)
  | .logic _ l r => max l.high (l.keep + 2 + r.high)
  | .binary _ l r => max l.high (max (l.keep + r.high) (l.keep + r.keep + 1))
  | .memberCall _ _ args | .funcCall _ args => args.length + max 1 (highArgs args)
  | .dynLit _ | .indexedMemberAccess _ _ _ _ | .indexedMemberCall _ _ _ _ _ => 0

/-- The most that an argument takes behind the window; a literal is loaded into the window. -/
def Expr.highArgs : List Expr → ℕ
  | [] => 0
  | e :: es => max (if e.isLiteral then 0 else e.high) (highArgs es)

end

mutual

def Expr.slots : Expr → List ℕ
  | .intLit _ | .floatLit _ | .boolLit _ | .stringLit _ | .memberAccess _ _ => []
  | .identifier _ ref => ref.off.toList
  | .arrAccess _ _ e | .not e => e.slots
  | .logic _ l r | .binary _ l r => l.slots ++ r.slots
  | .memberCall _ _ args | .funcCall _ args => slotsArgs args
  | .dynLit _ | .indexedMemberAccess _ _ _ _ | .indexedMemberCall _ _ _ _ _ => []

def Expr.slotsArgs : List Expr → List ℕ
  | [] => []
  | e :: es => e.slots ++ slotsArgs es

end

mutual

def Stmt.high : Stmt → ℕ
  | .varDecl _ _ e _ _ | .assign _ e _ | .memberAssign _ _ e | .exprStmt e | .returnStmt (some e) => e.high
  | .ifStmt cond thn none => max cond.high (blockHigh thn)
  | .ifStmt cond thn (some els) => max cond.high (max (blockHigh thn) (blockHigh els))
  | .whileStmt cond body => max cond.high (blockHigh body)
  | .arrAssign _ _ index value => max index.high (index.keep + value.high)
  | _ => 0

def Stmt.blockHigh : List Stmt → ℕ
  | [] => 0
  | s :: rest => max s.high (blockHigh rest)

end

mutual

/-- The slots that the declarations and assignments of a statement store into. -/
def Stmt.stores : Stmt → List ℕ
  | .varDecl _ _ _ _ ref | .assign _ _ ref => ref.off.toList
  | .ifStmt _ thn none => blockStores thn
  | .ifStmt _ thn (some els) => blockStores thn ++ blockStores els
  | .whileStmt _ body => blockStores body
  | _ => []

def Stmt.blockStores : List Stmt → List ℕ
  | [] => []
  | s :: rest => s.stores ++ blockStores rest

end

mutual

/-- The slots that a statement reads or stores into. -/
def Stmt.slots : Stmt → List ℕ
  | .varDecl _ _ e _ ref | .assign _ e ref => e.slots ++ ref.off.toList
  | .memberAssign _ _ e | .exprStmt e | .returnStmt (some e) => e.slots
  | .ifStmt cond thn none => cond.slots ++ blockSlots thn
  | .ifStmt cond thn (some els) => cond.slots ++ blockSlots thn ++ blockSlots els
  | .whileStmt cond body => cond.slots ++ blockSlots body
  | .arrAssign _ _ index value => index.slots ++ value.slots
  | _ => []

def Stmt.blockSlots : List Stmt → List ℕ
  | [] => []
  | s :: rest => s.slots ++ blockSlots rest

end

theorem Expr.keep_le_high (e : Expr) : e.keep ≤ e.high := by
  induction e with
  | intLit | floatLit | boolLit | stringLit | memberAccess | dynLit | indexedMemberAccess | indexedMemberCall =>
    simp [keep, high]
  | identifier name ref => rfl
  | binary op l r | arrAccess name ref index | not e =>
    rw [keep, high]
    omega
  | logic op l r ihl ihr =>
    rw [keep, high]
    omega
  | funcCall name args | memberCall owner method args =>
    rw [keep, high]
    omega

namespace Registers

abbrev Use := Option ℕ × List ℕ

def Band (lo hi x : ℕ) : Prop := lo ≤ x ∧ x < hi

/-- The code `A` takes its temporaries from the band `[lo, hi)`: apart from the band it writes what the source
stores and names what the source names, and every slot of the source is named, or is one of the registers
`out` whose values are still to be used. -/
structure Footprint (A : List Use) (lo hi : ℕ) (slots stores out : List ℕ) : Prop where
  writes : ∀ x, ¬ Band lo hi x → (A.filterMap Prod.fst).count x = stores.count x
  named : ∀ u ∈ A, ∀ x ∈ u.2, x ∈ slots ∨ Band lo hi x
  used : ∀ x ∈ slots, x ∈ out ∨ ∃ u ∈ A, x ∈ u.2
  pending : ∀ x ∈ out, x ∈ slots ∨ Band lo hi x

namespace Footprint

variable {A B : List Use} {lo hi lo' hi' : ℕ} {slots slots' stores stores' out out' : List ℕ}

theorem nil (lo hi : ℕ) : Footprint [] lo hi [] [] [] :=
  ⟨fun _ _ => rfl, by simp, by simp, by simp⟩

theorem widen (h : Footprint A lo hi slots stores out) (hlo : lo' ≤ lo) (hhi : hi ≤ hi') :
    Footprint A lo' hi' slots stores out := by
  have hband : ∀ x, Band lo hi x → Band lo' hi' x := fun x hx => ⟨hlo.trans hx.1, hx.2.trans_le hhi⟩
  refine ⟨?_, ?_, h.used, ?_⟩
  · intro x hx
    exact h.writes x fun hb => hx (hband x hb)
  · intro u hu x hx
    exact (h.named u hu x hx).imp_right (hband x)
  · intro x hx
    exact (h.pending x hx).imp_right (hband x)

theorem append (hA : Footprint A lo hi slots stores out) (hB : Footprint B lo hi slots' stores' out') :
    Footprint (A ++ B) lo hi (slots ++ slots') (stores ++ stores') (out ++ out') := by
  refine ⟨?_, ?_, ?_, ?_⟩
  · intro x hx
    rw [List.filterMap_append, List.count_append, List.count_append, hA.writes x hx, hB.writes x hx]
  · intro u hu x hx
    rcases List.mem_append.mp hu with hu | hu
    · exact (hA.named u hu x hx).imp_left (List.mem_append_left _)
    · exact (hB.named u hu x hx).imp_left (List.mem_append_right _)
  · intro x hx
    rcases List.mem_append.mp hx with hx | hx
    · rcases hA.used x hx with hx | ⟨u, hu, hx⟩
      · exact .inl (List.mem_append_left _ hx)
      · exact .inr ⟨u, List.mem_append_left _ hu, hx⟩
    · rcases hB.used x hx with hx | ⟨u, hu, hx⟩
      · exact .inl (List.mem_append_right _ hx)
      · exact .inr ⟨u, List.mem_append_right _ hu, hx⟩
  · intro x hx
    rcases List.mem_append.mp hx with hx | hx
    · exact (hA.pending x hx).imp_left (List.mem_append_left _)
    · exact (hB.pending x hx).imp_left (List.mem_append_right _)

/-- An instruction that uses the pending registers, with its result in the band. -/
theorem andThen (h : Footprint A lo hi slots stores out) {d : Option ℕ} {ops : List ℕ}
    (hd : ∀ x ∈ d, Band lo hi x) (hops : ∀ x ∈ ops, x ∈ out ∨ Band lo hi x) (hout : ∀ x ∈ out, x ∈ ops)
    (hout' : ∀ x ∈ out', x ∈ out ∨ Band lo hi x) : Footprint (A ++ [(d, ops)]) lo hi slots stores out' := by
  refine ⟨?_, ?_, ?_, fun x hx => (hout' x hx).elim (h.pending x) .inr⟩
  · intro x hx
    rw [List.filterMap_append, List.count_append, h.writes x hx]
    cases d with
    | none => rfl
    | some a =>
      have ha : a ≠ x := by
        rintro rfl
        exact hx (hd a rfl)
      simp [ha]
  · intro u hu x hx
    rcases List.mem_append.mp hu with hu | hu
    · exact h.named u hu x hx
    · rw [List.mem_singleton.mp hu] at hx
      exact (hops x hx).elim (h.pending x) .inr
  · intro x hx
    refine .inr ?_
    rcases h.used x hx with hx | ⟨u, hu, hx⟩
    · exact ⟨_, List.mem_append_right _ (List.mem_singleton_self _), hout x hx⟩
    · exact ⟨u, List.mem_append_left _ hu, hx⟩

theorem inside (h : Footprint A lo hi slots stores []) {d : Option ℕ} {ops : List ℕ}
    (hd : ∀ x ∈ d, Band lo hi x) (hops : ∀ x ∈ ops, Band lo hi x) :
    Footprint (A ++ [(d, ops)]) lo hi slots stores [] :=
  h.andThen hd (fun x hx => .inr (hops x hx)) (by simp) (by simp)

theorem consume (h : Footprint A lo hi slots stores out) : Footprint (A ++ [(none, out)]) lo hi slots stores [] :=
  h.andThen (by simp) (fun _ hx => .inl hx) (fun _ hx => hx) (by simp)

theorem compute (h : Footprint A lo hi slots stores out) {d : ℕ} (hd : Band lo hi d) :
    Footprint (A ++ [(some d, d :: out)]) lo hi slots stores [d] := by
  refine h.andThen (by simpa using hd) ?_ (fun _ => List.mem_cons_of_mem _) (by simpa using .inr hd)
  exact List.forall_mem_cons.mpr ⟨.inr hd, fun _ hx => .inl hx⟩

theorem store (h : Footprint A lo hi slots stores out) {off src : ℕ} (hout : out = [src]) :
    Footprint (A ++ [(some off, [off, src])]) lo hi (slots ++ [off]) (stores ++ [off]) [] := by
  subst hout
  refine ⟨?_, ?_, ?_, by simp⟩
  · intro x hx
    rw [List.filterMap_append, List.count_append, List.count_append, h.writes x hx]
    rfl
  · intro u hu x hx
    rcases List.mem_append.mp hu with hu | hu
    · exact (h.named u hu x hx).imp_left (List.mem_append_left _)
    · rw [List.mem_singleton.mp hu] at hx
      rcases List.mem_pair.mp hx with rfl | rfl
      · exact .inl (List.mem_append_right _ (List.mem_singleton_self _))
      · exact (h.pending _ (List.mem_singleton_self _)).imp_left (List.mem_append_left _)
  · intro x hx
    refine .inr ?_
    have hmove : ∀ x ∈ [off, src], ∃ u ∈ A ++ [(some off, [off, src])], x ∈ u.2 := fun x hx =>
      ⟨_, List.mem_append_right _ (List.mem_singleton_self _), hx⟩
    rcases List.mem_append.mp hx with hx | hx
    · rcases h.used x hx with hx | ⟨u, hu, hx⟩
      · exact hmove x (List.mem_cons_of_mem _ hx)
      · exact ⟨u, List.mem_append_left _ hu, hx⟩
    · exact hmove x (List.mem_cons.mpr (.inl (List.mem_singleton.mp hx)))

end Footprint

theorem map_use_modify (code : List Instr) (k t : ℕ) :
    (code.modify k (withTarget t)).map use = code.map use := by
  induction code generalizing k with
  | nil => simp
  | cons i code ih =>
    cases k with
    | zero => simp
    | succ k => simpa using ih k

/-- The compiler appended instructions with the uses `A`, and left these numbers. It added no constants but
literals. -/
structure Step (c c' : Chunk) (A : List Use) (next peak : ℕ) : Prop where
  uses : c'.code.map use = c.code.map use ++ A
  literal : c.Literal → c'.Literal
  nextReg : c'.nextReg = next
  peakReg : c'.peakReg = peak

namespace Step

variable {c c' c₁ c₂ : Chunk} {A B : List Use} {n n' pk pk' : ℕ} {u : Unit}

theorem trans (h : Step c c₁ A n pk) (h' : Step c₁ c₂ B n' pk') : Step c c₂ (A ++ B) n' pk' :=
  ⟨by rw [h'.uses, h.uses, List.append_assoc], h'.literal ∘ h.literal, h'.nextReg, h'.peakReg⟩

theorem of_code (hcode : c'.code = c.code) (hn : c'.nextReg = n) (hp : c'.peakReg = pk) : Step c c' [] n pk :=
  ⟨by rw [hcode, List.append_nil], fun hc => by rwa [Chunk.Literal, hcode], hn, hp⟩

variable {r k : ℕ}

theorem emit {i : Instr} (h : emit i c = some (k, c')) (hi : i.Literal) :
    Step c c' [i.use] c.nextReg c.peakReg := by
  cases h
  exact ⟨List.map_append, fun hc => List.forall_mem_append.mpr ⟨hc, by simpa using hi⟩, rfl, rfl⟩

theorem addConst (h : addConst c = some (u, c')) : Step c c' [] c.nextReg c.peakReg := by
  unfold CompileM.addConst at h
  change (if chunkMaxConst ≤ c.constCount then _ else _ : CompileM Unit) c = _ at h
  split at h
  · exact nomatch (h : none = some _)
  · cases h
    exact of_code rfl rfl rfl

theorem reserveRegs {count : ℕ} (h : reserveRegs count c = some (r, c')) :
    r = c.nextReg ∧ Step c c' [] (c.nextReg + count) (max c.peakReg (c.nextReg + count)) := by
  unfold CompileM.reserveRegs at h
  change (if 255 < count ∨ chunkMaxReg < c.nextReg + count then _ else _ : CompileM ℕ) c = _ at h
  split at h
  · exact nomatch (h : none = some _)
  · cases h
    exact ⟨rfl, of_code rfl rfl rfl⟩

theorem allocReg (h : allocReg c = some (r, c')) :
    r = c.nextReg ∧ Step c c' [] (c.nextReg + 1) (max c.peakReg (c.nextReg + 1)) := by
  unfold CompileM.allocReg at h
  change (if chunkMaxReg ≤ c.nextReg then _ else _ : CompileM ℕ) c = _ at h
  split at h
  · exact nomatch (h : none = some _)
  · cases h
    exact ⟨rfl, of_code rfl rfl rfl⟩

theorem markStringReg (h : markStringReg r c = some (u, c')) : Step c c' [] c.nextReg c.peakReg := by
  unfold CompileM.markStringReg at h
  split at h
  · exact nomatch (h : none = some _)
  · cases h
    exact of_code rfl rfl rfl

theorem setNextReg (h : setNextReg r c = some (u, c')) : Step c c' [] r c.peakReg := by
  cases h
  exact of_code rfl rfl rfl

theorem noteSlot {off : ℕ} (h : noteSlot off c = some (u, c')) : Step c c' [] c.nextReg c.peakReg := by
  cases h
  exact of_code rfl rfl rfl

theorem noteSlot? {off : Option ℕ} (h : noteSlot? off c = some (u, c')) :
    Step c c' [] c.nextReg c.peakReg := by
  cases off with
  | none =>
    cases h
    exact of_code rfl rfl rfl
  | some off => exact noteSlot h

theorem patch (h : patch k c = some (u, c')) : Step c c' [] c.nextReg c.peakReg := by
  cases h
  refine ⟨?_, ?_, rfl, rfl⟩
  · rw [List.append_nil]
    exact map_use_modify c.code k c.code.length
  · intro hc i hi
    rcases mem_modify hi with hi | ⟨x, hx, rfl⟩
    · exact hc i hi
    · exact (hc x (List.mem_of_getElem? hx)).withTarget _

theorem andEmit {i : Instr} (g : Step c c₁ A n pk) (h : CompileM.emit i c₁ = some (k, c₂)) (hi : i.Literal) :
    Step c c₂ (A ++ [i.use]) n pk := by
  have g' := g.trans (emit h hi)
  rwa [g.nextReg, g.peakReg] at g'

theorem andIdle (g : Step c c₁ A n pk) (h : Step c₁ c₂ [] c₁.nextReg c₁.peakReg) : Step c c₂ A n pk := by
  have g' := g.trans h
  rwa [List.append_nil, g.nextReg, g.peakReg] at g'

theorem andAlloc (g : Step c c₁ A n pk) (h : CompileM.allocReg c₁ = some (r, c₂)) :
    r = n ∧ Step c c₂ A (n + 1) (max pk (n + 1)) := by
  obtain ⟨rfl, g₁⟩ := allocReg h
  have g' := g.trans g₁
  rw [List.append_nil, g.nextReg, g.peakReg] at g'
  exact ⟨g.nextReg, g'⟩

theorem andSetNextReg (g : Step c c₁ A n pk) (h : CompileM.setNextReg r c₁ = some (u, c₂)) : Step c c₂ A r pk := by
  have g' := g.trans (setNextReg h)
  rwa [List.append_nil, g.peakReg] at g'

end Step

section Expressions

variable {p : Probe}

/-- What compiling an expression does to the registers, its value being in `r`. -/
structure ExprStep (e : Expr) (c c' : Chunk) (r : ℕ) (A : List Use) : Prop where
  step : Step c c' A (c.nextReg + e.keep) (max c.peakReg (c.nextReg + e.high))
  footprint : Footprint A c.nextReg (c.nextReg + e.high) e.slots [] [r]
  computed : e.isVariable = false → ∃ u ∈ A, r ∈ u.2

theorem computed_last (A : List Use) (d : ℕ) (ops : List ℕ) : ∃ u ∈ A ++ [(some d, d :: ops)], d ∈ u.2 :=
  ⟨_, List.mem_append_right _ (List.mem_singleton_self _), List.mem_cons_self⟩

variable {c c' c₁ c₂ c₃ : Chunk} {A : List Use} {e l : Expr} {r n pk lo hi dst k : ℕ} {u : Unit}

theorem Step.compileFieldRead {owner field : Ident} {isValue : Bool}
    (g : Step c c₁ A n pk) (h : Fluxa.compileFieldRead owner field isValue c₁ = some (r, c₂)) :
    r = n ∧ Step c c₂ (A ++ [(some r, [r])]) (n + 1) (max pk (n + 1)) := by
  simp only [Fluxa.compileFieldRead, makes_bind] at h
  obtain ⟨_, _, h₁, _, _, h₂, dst, _, h₃, h⟩ := h
  obtain ⟨rfl, g⟩ := ((g.andIdle (.addConst h₁)).andIdle (.addConst h₂)).andAlloc h₃
  split at h
  · simp only [makes_bind, makes_pure] at h
    obtain ⟨_, _, h₄, rfl, rfl⟩ := h
    exact ⟨rfl, g.andEmit h₄ trivial⟩
  · simp only [makes_bind, makes_pure] at h
    obtain ⟨_, _, h₄, _, _, h₅, rfl, rfl⟩ := h
    exact ⟨rfl, (g.andIdle (.markStringReg h₄)).andEmit h₅ trivial⟩

theorem Footprint.temp (n : ℕ) : Footprint [(some n, [n])] n (n + 1) [] [] [n] :=
  (Footprint.nil n (n + 1)).compute ⟨le_rfl, Nat.lt_succ_self n⟩

theorem Step.init (c : Chunk) : Step c c [] c.nextReg c.peakReg := .of_code rfl rfl rfl

theorem Step.le (g : Step c c' A c.nextReg c.peakReg) (hc : c.nextReg ≤ c.peakReg) : c'.nextReg ≤ c'.peakReg := by
  rwa [g.nextReg, g.peakReg]

theorem Step.congr {n' pk' : ℕ} (g : Step c c' A n pk) (hn : n = n') (hp : pk = pk') : Step c c' A n' pk' := hn ▸ hp ▸ g

theorem ExprStep.after (h : ExprStep e c₁ c₂ r A) (g : Step c c₁ [] c.nextReg c.peakReg) : ExprStep e c c₂ r A := by
  obtain ⟨hstep, hF, hr⟩ := h
  rw [g.nextReg, g.peakReg] at hstep
  rw [g.nextReg] at hF
  exact ⟨g.trans hstep, hF, hr⟩

theorem ExprStep.le (h : ExprStep e c c' r A) : c'.nextReg ≤ c'.peakReg := by
  have := e.keep_le_high
  rw [h.step.nextReg, h.step.peakReg]
  omega

/-- The register of a value is one of the band, and the instruction that computes it is the last one. -/
theorem Footprint.result {d : ℕ} {slots stores out ops : List ℕ}
    (h : Footprint A lo hi slots stores out) (hd : Band lo hi d) (hops : ∀ x ∈ ops, x ∈ out ∨ Band lo hi x)
    (hout : ∀ x ∈ out, x ∈ ops) : Footprint (A ++ [(some d, d :: ops)]) lo hi slots stores [d] := by
  refine h.andThen (by simpa using hd) ?_ (fun x hx => List.mem_cons_of_mem _ (hout x hx)) (by simpa using .inr hd)
  exact List.forall_mem_cons.mpr ⟨.inr hd, hops⟩

/-- The left side of a logical operator, with its truth value in a register of its own and one for the
result. -/
structure LeftStep (l : Expr) (c c' : Chunk) (A : List Use) : Prop where
  step : Step c c' A (c.nextReg + l.keep + 2) (max c.peakReg (c.nextReg + max l.high (l.keep + 2)))
  footprint : Footprint A c.nextReg (c.nextReg + max l.high (l.keep + 2)) l.slots [] []

theorem ExprStep.logicLeft {c₄ c₅ c₆ : Chunk} {lr tl k' k'' : ℕ}
    (hA : ExprStep l c c₁ lr A) (h₂ : allocReg c₁ = some (tl, c₂))
    (h₃ : emit (.truthy tl lr) c₂ = some (k, c₃)) (h₄ : allocReg c₃ = some (dst, c₄))
    (h₅ : emit (.move dst tl) c₄ = some (k', c₅))
    (h₆ : emit (.jumpIfFalse tl 0) c₅ = some (k'', c₆)) :
    dst = c.nextReg + l.keep + 1 ∧ ∃ A', LeftStep l c c₆ A' := by
  obtain ⟨rfl, g⟩ := hA.step.andAlloc h₂
  obtain ⟨rfl, g⟩ := (g.andEmit h₃ trivial).andAlloc h₄
  refine ⟨rfl, _, ((g.andEmit h₅ trivial).andEmit h₆ trivial).congr rfl (by omega), ?_⟩
  have htl : Band c.nextReg (c.nextReg + max l.high (l.keep + 2)) (c.nextReg + l.keep) := ⟨by omega, by omega⟩
  have hdst : Band c.nextReg (c.nextReg + max l.high (l.keep + 2)) (c.nextReg + l.keep + 1) :=
    ⟨by omega, by omega⟩
  have hA' := hA.footprint.widen (le_refl c.nextReg)
    (show c.nextReg + l.high ≤ c.nextReg + max l.high (l.keep + 2) by omega)
  -- the truth value is written, moved and tested
  have htruth : Footprint (A ++ [(some (c.nextReg + l.keep), [c.nextReg + l.keep, lr])]) c.nextReg
      (c.nextReg + max l.high (l.keep + 2)) l.slots [] [c.nextReg + l.keep] := hA'.compute htl
  exact (htruth.andThen (by simpa [dest] using hdst)
    (List.forall_mem_cons.mpr ⟨.inr hdst, fun _ hx => .inl hx⟩) (fun _ => List.mem_cons_of_mem _) (by simp)).inside
      (by simp [dest]) (List.forall_mem_singleton.mpr htl)

theorem LeftStep.le (h : LeftStep l c c' A) : c'.nextReg ≤ c'.peakReg := by
  rw [h.step.nextReg, h.step.peakReg]
  omega

theorem LeftStep.andJump (h : LeftStep l c c₁ A)
    (h₁ : emit (.jump 0) c₁ = some (k, c₂)) (h₂ : Step c₂ c₃ [] c₂.nextReg c₂.peakReg) :
    LeftStep l c c₃ (A ++ [(none, [])]) :=
  ⟨(h.step.andEmit h₁ trivial).andIdle h₂, h.footprint.inside (by simp) (by simp)⟩

theorem LeftStep.logicRight {op : LogicOp} {r : Expr} {c₄ : Chunk} {B : List Use} {rr : ℕ}
    (hA : LeftStep l c c₁ A) (hB : ExprStep r c₁ c₂ rr B)
    (h₁ : emit (.truthy (c.nextReg + l.keep + 1) rr) c₂ = some (k, c₃))
    (h₂ : Step c₃ c₄ [] c₃.nextReg c₃.peakReg) :
    ∃ A', ExprStep (.logic op l r) c c₄ (c.nextReg + l.keep + 1) A' := by
  have hn := hA.step.nextReg
  have hp := hA.step.peakReg
  refine ⟨_, (((hA.step.trans hB.step).andEmit h₁ trivial).andIdle h₂).congr ?_ ?_, ?_, fun _ => computed_last _ _ _⟩
  · rw [keep]
    omega
  · rw [high]
    omega
  · rw [high]
    exact ((hA.footprint.widen le_rfl (by omega)).append
      (hB.footprint.widen (by omega) (by omega))).compute ⟨by omega, by omega⟩

theorem compileLiteralInto_step {b : Bool}
    (h : compileLiteralInto dst e c = some (b, c')) :
    b = e.isLiteral ∧ Step c c' (if b then [(some dst, [dst])] else []) c.nextReg c.peakReg := by
  cases e with
  | intLit | floatLit | boolLit =>
    simp only [compileLiteralInto, makes_bind, makes_pure] at h
    obtain ⟨_, c₁, h₁, _, c₂, h₂, rfl, rfl⟩ := h
    exact ⟨rfl, ((Step.init c).andIdle (.addConst h₁)).andEmit h₂ rfl⟩
  | stringLit =>
    simp only [compileLiteralInto, makes_bind, makes_pure] at h
    obtain ⟨_, c₁, h₁, _, c₂, h₂, _, c₃, h₃, rfl, rfl⟩ := h
    exact ⟨rfl, (((Step.init c).andIdle (.addConst h₁)).andIdle (.markStringReg h₂)).andEmit h₃ trivial⟩
  | _ =>
    simp only [compileLiteralInto, makes_pure] at h
    obtain ⟨rfl, rfl⟩ := h
    exact ⟨rfl, Step.init _⟩

theorem Expr.slots_of_isLiteral (h : e.isLiteral = true) : e.slots = [] := by
  cases e with
  | intLit | floatLit | boolLit | stringLit => rfl
  | _ => exact nomatch h

theorem Step.moveInto {src : ℕ}
    (g : Step c c₁ A n pk) (h : Fluxa.moveInto e dst src c₁ = some (u, c₂)) :
    Step c c₂ (A ++ [(some dst, [dst, src])]) n pk := by
  unfold Fluxa.moveInto at h
  split at h
  · simp only [makes_bind, makes_pure] at h
    obtain ⟨_, c₁, h₁, -, rfl⟩ := h
    exact g.andEmit h₁ trivial
  · simp only [makes_bind, makes_pure] at h
    obtain ⟨_, c₁, h₁, -, rfl⟩ := h
    exact g.andEmit h₁ trivial

/-- The most that one argument takes behind the window. -/
def highArg (e : Expr) : ℕ := if e.isLiteral then 0 else e.high

/-- The first argument of a window from `slot` on, with temporaries from `base` on. A variable that happens to
be the register of the window is left where it is. -/
theorem compileArgs_cons {es : List Expr}
    (ih : ∀ {c c' : Chunk} {r : ℕ}, compileExpr p e c = some (r, c') → c.nextReg ≤ c.peakReg →
      ∃ A, ExprStep e c c' r A) {base slot : ℕ}
    (h : compileArgs p base slot (e :: es) c = some (u, c')) (hbase : base ≤ c.peakReg) (hlo : lo ≤ slot)
    (hslot : slot < base) (hhi : base + highArg e ≤ hi) :
    ∃ A n out c₁, Step c c₁ A n (max c.peakReg (base + highArg e)) ∧ Footprint A lo hi e.slots [] out ∧
      (∀ x ∈ out, x = slot) ∧ compileArgs p base (slot + 1) es c₁ = some (u, c') := by
  simp only [compileArgs] at h
  obtain ⟨_, c₁, h₁, h⟩ := makes_bind.mp h
  obtain ⟨isLit, c₂, h₂, h⟩ := makes_bind.mp h
  have g₁ := Step.setNextReg h₁
  have hn := g₁.nextReg
  have hp := g₁.peakReg
  obtain ⟨rfl, g₂⟩ := compileLiteralInto_step h₂
  have hband : Band lo hi slot := ⟨hlo, by omega⟩
  by_cases hlit : e.isLiteral = true
  · rw [if_neg (by simp [hlit])] at h
    rw [if_pos hlit] at g₂
    refine ⟨_, _, [], c₂, (g₁.trans g₂).congr rfl ?_, ?_, by simp, h⟩
    · rw [highArg, if_pos hlit]
      omega
    · rw [Expr.slots_of_isLiteral hlit]
      exact (Footprint.nil lo hi).inside (by simpa using hband) (List.forall_mem_singleton.mpr hband)
  · rw [if_pos (by simp [hlit])] at h
    rw [if_neg hlit] at g₂
    have hn₂ := g₂.nextReg
    have hp₂ := g₂.peakReg
    obtain ⟨ar, c₃, h₃, h⟩ := makes_bind.mp h
    obtain ⟨A, hA⟩ := ih h₃ (by omega)
    have hh : highArg e = e.high := if_neg hlit
    have g₃ : Step c c₃ A (base + e.keep) (max c.peakReg (base + highArg e)) := by
      refine ((g₁.trans g₂).trans hA.step).congr ?_ ?_
      · omega
      · rw [hh]
        omega
    have hF : Footprint A lo hi e.slots [] [ar] := hA.footprint.widen (by omega) (by omega)
    split at h
    next =>
      have hmove : Footprint (A ++ [(some slot, [slot, ar])]) lo hi e.slots [] [] := by
        refine hF.andThen (by simpa using hband) ?_ (fun x hx => List.mem_cons_of_mem _ hx) (by simp)
        exact List.forall_mem_cons.mpr ⟨.inr hband, fun _ hx => .inl hx⟩
      obtain ⟨_, c₄, h₄, h⟩ := makes_bind.mp h
      split at h
      · obtain ⟨_, c₅, h₅, h⟩ := makes_bind.mp h
        exact ⟨_, _, [], c₅, (g₃.moveInto h₄).andIdle (.markStringReg h₅), hmove, by simp, h⟩
      · exact ⟨_, _, [], c₄, g₃.moveInto h₄, hmove, by simp, h⟩
    next heq =>
      exact ⟨_, _, [ar], c₃, g₃, hF, List.forall_mem_singleton.mpr (not_not.mp heq), h⟩

theorem compileArgs_step {es : List Expr}
    (ih : ∀ e ∈ es, ∀ {c c' : Chunk} {r : ℕ}, compileExpr p e c = some (r, c') → c.nextReg ≤ c.peakReg →
      ∃ A, ExprStep e c c' r A) {base slot : ℕ}
    (h : compileArgs p base slot es c = some (u, c')) (hbase : base ≤ c.peakReg) (hlo : lo ≤ slot)
    (hslot : slot + es.length ≤ base) (hhi : base + highArgs es ≤ hi) :
    ∃ A n out, Step c c' A n (max c.peakReg (base + highArgs es)) ∧
      Footprint A lo hi (slotsArgs es) [] out ∧ ∀ x ∈ out, x ∈ List.range' slot es.length := by
  induction es generalizing slot c with
  | nil =>
    simp only [compileArgs, makes_pure] at h
    obtain ⟨-, rfl⟩ := h
    refine ⟨[], _, [], (Step.init _).congr rfl (Nat.max_eq_left (by simpa [highArgs] using hbase)).symm,
      .nil lo hi, by simp⟩
  | cons e es ihes =>
    obtain ⟨he, hes⟩ := List.forall_mem_cons.mp ih
    rw [List.length_cons] at hslot
    have hmax : highArgs (e :: es) = max (highArg e) (highArgs es) := rfl
    rw [hmax] at hhi
    obtain ⟨A, n, out, c₁, g, hA, hout, h⟩ := compileArgs_cons he h hbase hlo (by omega) (show _ ≤ hi by omega)
    have hp := g.peakReg
    obtain ⟨B, n', out', g', hB, hout'⟩ := ihes hes h (by omega) (by omega) (by omega) (by omega)
    refine ⟨_, _, _, (g.trans g').congr rfl (by omega), hA.append hB, ?_⟩
    intro x hx
    rw [List.length_cons, List.range'_succ]
    rcases List.mem_append.mp hx with hx | hx
    · exact List.mem_cons.mpr (.inl (hout x hx))
    · exact List.mem_cons_of_mem _ (hout' x hx)

theorem call_step {args : List Expr} (hk : e.keep = args.length + 1)
    (hh : e.high = args.length + max 1 (highArgs args)) (hs : e.slots = slotsArgs args)
    (ih : ∀ e ∈ args, ∀ {c c' : Chunk} {r : ℕ}, compileExpr p e c = some (r, c') → c.nextReg ≤ c.peakReg →
      ∃ A, ExprStep e c c' r A) {isString : Bool} {i : ℕ → ℕ → Instr}
    (hi : ∀ dst first, (i dst first).use = (some dst, dst :: List.range' first args.length))
    {c₀ : Chunk} (g : Step c c₀ [] c.nextReg c.peakReg) (h : (do
      let first ← reserveRegs args.length
      compileArgs p (first + args.length) first args
      setNextReg (first + args.length)
      let dst ← allocReg
      if isString then markStringReg dst
      let _ ← emit (i dst first)
      pure dst : CompileM ℕ) c₀ = some (r, c')) (hlit : ∀ dst first, (i dst first).Literal) :
    ∃ A, ExprStep e c c' r A := by
  obtain ⟨first, c₁, h₁, h⟩ := makes_bind.mp h
  obtain ⟨_, c₂, h₂, h⟩ := makes_bind.mp h
  obtain ⟨_, c₃, h₃, h⟩ := makes_bind.mp h
  obtain ⟨dst, c₄, h₄, h⟩ := makes_bind.mp h
  obtain ⟨rfl, g₁⟩ := Step.reserveRegs h₁
  have hn := g.nextReg
  have hp := g.peakReg
  have hp₁ := g₁.peakReg
  have hlast : ∀ x ∈ List.range' c₀.nextReg args.length, Band c.nextReg (c.nextReg + e.high) x := by
    intro x hx
    rw [List.mem_range'_1] at hx
    exact ⟨by omega, by omega⟩
  obtain ⟨A, n, out, g₂, hA, hout⟩ := compileArgs_step ih h₂ (by omega) (show c.nextReg ≤ _ by omega) (by omega)
    (show _ ≤ c.nextReg + e.high by omega)
  obtain ⟨rfl, g₄⟩ := (((g.trans g₁).trans g₂).andSetNextReg h₃).andAlloc h₄
  have hdst : Band c.nextReg (c.nextReg + e.high) (c₀.nextReg + args.length) := ⟨by omega, by omega⟩
  have hF := hA.result hdst (fun x hx => .inr (hlast x hx)) hout
  have hlastStep : ∀ c₅, Step c₄ c₅ [] c₄.nextReg c₄.peakReg →
      ∀ k, emit (i (c₀.nextReg + args.length) c₀.nextReg) c₅ = some (k, c') →
      ExprStep e c c' (c₀.nextReg + args.length) _ := fun c₅ g₅ k h₅ => by
    refine ⟨((g₄.andIdle g₅).andEmit h₅ (hlit _ _)).congr ?_ ?_, ?_, fun _ => hi _ _ ▸ computed_last _ _ _⟩
    · omega
    · omega
    · rw [hi, hs]
      exact hF
  split at h
  · simp only [makes_bind, makes_pure] at h
    obtain ⟨_, c₅, h₅, _, c₆, h₆, rfl, rfl⟩ := h
    exact ⟨_, hlastStep _ (.markStringReg h₅) _ h₆⟩
  · simp only [makes_bind, makes_pure] at h
    obtain ⟨_, c₅, h₅, rfl, rfl⟩ := h
    exact ⟨_, hlastStep _ (.init _) _ h₅⟩

theorem compileExpr_step (h : compileExpr p e c = some (r, c'))
    (hc : c.nextReg ≤ c.peakReg) : ∃ A, ExprStep e c c' r A := by
  induction e generalizing c c' r with
  | intLit i | floatLit d | boolLit b =>
    simp only [compileExpr, makes_bind, makes_pure] at h
    obtain ⟨_, c₁, h₁, _, c₂, h₂, _, c₃, h₃, rfl, rfl⟩ := h
    obtain ⟨rfl, g⟩ := ((Step.init c).andIdle (.addConst h₁)).andAlloc h₂
    exact ⟨_, g.andEmit h₃ rfl, .temp _, fun _ => computed_last _ _ _⟩
  | stringLit s =>
    simp only [compileExpr, makes_bind, makes_pure] at h
    obtain ⟨_, c₁, h₁, r, c₂, h₂, _, c₃, h₃, _, c₄, h₄, rfl, rfl⟩ := h
    obtain ⟨rfl, g⟩ := ((Step.init c).andIdle (.addConst h₁)).andAlloc h₂
    exact ⟨_, (g.andIdle (.markStringReg h₃)).andEmit h₄ trivial, .temp _, fun _ => computed_last _ _ _⟩
  | identifier name ref =>
    rcases ref with ⟨_ | off, warm⟩
    · simp only [compileExpr] at h
      rcases hb : (if p.ownerFn then none else p.bareField name) with _ | ⟨owner, isValue⟩
      · rw [hb] at h
        cases (h : none = some _)
      · rw [hb] at h
        obtain ⟨rfl, g⟩ := (Step.init c).compileFieldRead h
        exact ⟨_, g, .temp _, fun h => Bool.noConfusion h⟩
    · simp only [compileExpr, makes_bind, makes_pure] at h
      obtain ⟨_, c₁, h₁, rfl, rfl⟩ := h
      refine ⟨[], (Step.noteSlot h₁).congr rfl (Nat.max_eq_left hc).symm, ?_, fun h => Bool.noConfusion h⟩
      exact ⟨fun _ _ => rfl, by simp, fun x hx => .inl hx, fun x hx => .inl hx⟩
  | arrAccess name ref index ih =>
    simp only [compileExpr] at h
    split at h
    · cases (h : none = some _)
    · simp only [makes_bind, makes_pure] at h
      obtain ⟨_, c₁, h₁, idx, c₂, h₂, _, c₃, h₃, _, c₄, h₄, _, c₅, h₅, rfl, rfl⟩ := h
      have g₁ := Step.noteSlot? h₁
      obtain ⟨A, hA⟩ := ih h₂ (g₁.le hc)
      replace hA := hA.after g₁
      obtain ⟨rfl, g⟩ := (hA.step.andIdle (.addConst h₃)).andAlloc h₄
      refine ⟨_, (g.andEmit h₅ trivial).congr ?_ ?_, ?_, fun _ => computed_last _ _ _⟩
      · rfl
      · rw [high]
        omega
      · rw [high]
        exact (hA.footprint.widen le_rfl (by omega)).compute ⟨by omega, by omega⟩
  | not e ih =>
    simp only [compileExpr, makes_bind, makes_pure] at h
    obtain ⟨src, c₁, h₁, _, c₂, h₂, _, c₃, h₃, rfl, rfl⟩ := h
    obtain ⟨A, hA⟩ := ih h₁ hc
    obtain ⟨rfl, g⟩ := hA.step.andAlloc h₂
    refine ⟨_, (g.andEmit h₃ trivial).congr ?_ ?_, ?_, fun _ => computed_last _ _ _⟩
    · rfl
    · rw [high]
      omega
    · rw [high]
      exact (hA.footprint.widen le_rfl (by omega)).compute ⟨by omega, by omega⟩
  | binary op l r ihl ihr =>
    simp only [compileExpr, makes_bind, makes_pure] at h
    obtain ⟨r₁, c₁, h₁, r₂, c₂, h₂, _, c₃, h₃, _, c₄, h₄, rfl, rfl⟩ := h
    obtain ⟨A, hA⟩ := ihl h₁ hc
    obtain ⟨B, hB⟩ := ihr h₂ hA.le
    have hn := hA.step.nextReg
    have hp := hA.step.peakReg
    obtain ⟨rfl, g⟩ := (hA.step.trans hB.step).andAlloc h₃
    refine ⟨_, (g.andEmit h₄ trivial).congr ?_ ?_, ?_, fun _ => computed_last _ _ _⟩
    · rw [keep]
      omega
    · rw [high]
      omega
    · rw [high]
      exact ((hA.footprint.widen le_rfl (by omega)).append
        (hB.footprint.widen (by omega) (by omega))).compute ⟨by omega, by omega⟩
  | logic op l r ihl ihr =>
    simp only [compileExpr] at h
    obtain ⟨lr, c₁, h₁, h⟩ := makes_bind.mp h
    obtain ⟨tl, c₂, h₂, h⟩ := makes_bind.mp h
    obtain ⟨_, c₃, h₃, h⟩ := makes_bind.mp h
    obtain ⟨dst, c₄, h₄, h⟩ := makes_bind.mp h
    obtain ⟨_, c₅, h₅, h⟩ := makes_bind.mp h
    obtain ⟨jf, c₆, h₆, h⟩ := makes_bind.mp h
    obtain ⟨A, hA⟩ := ihl h₁ hc
    obtain ⟨rfl, A', hA'⟩ := hA.logicLeft h₂ h₃ h₄ h₅ h₆
    cases op with
    | and =>
      simp only [makes_bind, makes_pure] at h
      obtain ⟨rr, c₇, h₇, _, c₈, h₈, _, c₉, h₉, rfl, rfl⟩ := h
      obtain ⟨B, hB⟩ := ihr h₇ hA'.le
      exact hA'.logicRight hB h₈ (.patch h₉)
    | or =>
      simp only [makes_bind, makes_pure] at h
      obtain ⟨jmp, c₇, h₇, _, c₈, h₈, rr, c₉, h₉, _, c₁₀, h₁₀, _, c₁₁, h₁₁, rfl, rfl⟩ := h
      have hA'' := hA'.andJump h₇ (.patch h₈)
      obtain ⟨B, hB⟩ := ihr h₉ hA''.le
      exact hA''.logicRight hB h₁₀ (.patch h₁₁)
  | memberAccess owner field =>
    unfold compileExpr at h
    obtain ⟨rfl, g⟩ := (Step.init c).compileFieldRead h
    exact ⟨_, g, .temp _, fun _ => computed_last _ _ _⟩
  | memberCall owner method args ih =>
    unfold compileExpr at h
    obtain ⟨_, c₁, h₁, h⟩ := makes_bind.mp h
    obtain ⟨_, c₂, h₂, h⟩ := makes_bind.mp h
    exact call_step rfl rfl rfl ih (fun _ _ => rfl) ((Step.addConst h₁).andIdle (.addConst h₂)) h fun _ _ => trivial
  | funcCall name args ih =>
    unfold compileExpr at h
    obtain ⟨_, c₁, h₁, h⟩ := makes_bind.mp h
    exact call_step rfl rfl rfl ih (fun _ _ => rfl) (Step.addConst h₁) h fun _ _ => trivial
  | dynLit | indexedMemberAccess | indexedMemberCall =>
    unfold compileExpr at h
    cases (h : none = some _)

end Expressions

section Statements

variable {p : Probe}

/-- What compiling a statement or a block does to the registers. -/
structure StmtStep (high : ℕ) (slots stores : List ℕ) (c c' : Chunk) (A : List Use) : Prop where
  step : Step c c' A c.nextReg (max c.peakReg (c.nextReg + high))
  footprint : Footprint A c.nextReg (c.nextReg + high) slots stores []

variable {c c' c₁ c₂ : Chunk} {A : List Use} {slots stores : List ℕ} {high lo hi : ℕ} {u : Unit}

theorem StmtStep.le (h : StmtStep high slots stores c c' A) : c'.nextReg ≤ c'.peakReg := by
  rw [h.step.nextReg, h.step.peakReg]
  omega

theorem Footprint.discard {r : ℕ}
    (h : Footprint A lo hi slots stores [r]) (hr : ∃ u ∈ A, r ∈ u.2) : Footprint A lo hi slots stores [] := by
  refine ⟨h.writes, h.named, ?_, by simp⟩
  intro x hx
  rcases h.used x hx with hx | hx
  · rw [List.mem_singleton.mp hx]
    exact .inr hr
  · exact .inr hx

theorem Footprint.andDrops {D : List Use}
    (h : Footprint A lo hi slots stores []) (hD : ∀ u ∈ D, ∃ a, Band lo hi a ∧ u = (some a, [a])) :
    Footprint (A ++ D) lo hi slots stores [] := by
  induction D generalizing A with
  | nil => rwa [List.append_nil]
  | cons u D ih =>
    obtain ⟨⟨a, ha, rfl⟩, hrest⟩ := List.forall_mem_cons.mp hD
    rw [List.append_cons]
    exact ih (h.inside (by simpa using ha) (List.forall_mem_singleton.mpr ha)) hrest

theorem Step.emitStringDrops {n pk first stop : ℕ}
    (g : Step c c₁ A n pk) (h : emitStringDrops first stop c₁ = some (u, c₂)) (hlo : lo ≤ first)
    (hhi : stop ≤ hi) :
    ∃ D, Step c c₂ (A ++ D) n pk ∧ ∀ u ∈ D, ∃ a, Band lo hi a ∧ u = (some a, [a]) := by
  cases h
  refine ⟨_, g.trans ⟨List.map_append, fun hc => List.forall_mem_append.mpr ⟨hc, ?_⟩, g.nextReg, g.peakReg⟩, ?_⟩
  · intro i hi
    obtain ⟨a, -, rfl⟩ := List.mem_map.mp hi
    trivial
  intro u hu
  obtain ⟨i, hi, rfl⟩ := List.mem_map.mp hu
  obtain ⟨a, ha, rfl⟩ := List.mem_map.mp hi
  obtain ⟨ha, -⟩ := List.mem_filter.mp ha
  rw [List.mem_range'_1] at ha
  exact ⟨a, ⟨by omega, by omega⟩, rfl⟩

theorem StmtStep.finish {n : ℕ}
    (g : Step c c₁ A n (max c.peakReg (c.nextReg + high))) (hn : n ≤ c.nextReg + high)
    (hF : Footprint A c.nextReg (c.nextReg + high) slots stores [])
    (h : finishNode c.nextReg c₁ = some (u, c₂)) : ∃ A', StmtStep high slots stores c c₂ A' := by
  simp only [finishNode, makes_bind, makes_get] at h
  obtain ⟨_, _, ⟨rfl, rfl⟩, _, c₃, h₁, h₂⟩ := h
  obtain ⟨D, g', hD⟩ := g.emitStringDrops h₁ le_rfl (g.nextReg.trans_le hn)
  exact ⟨A ++ D, g'.andSetNextReg h₂, hF.andDrops hD⟩

theorem compileStore_step {name : Ident} {value : Expr} {off : Option ℕ}
    (h : compileStore p name value off c = some (u, c')) (hc : c.nextReg ≤ c.peakReg) :
    ∃ A, Step c c' A (c.nextReg + value.keep) (max c.peakReg (c.nextReg + value.high)) ∧
      Footprint A c.nextReg (c.nextReg + value.high) (value.slots ++ off.toList) off.toList [] := by
  obtain ⟨src, c₁, h₁, h⟩ := makes_bind.mp h
  obtain ⟨A, hA⟩ := compileExpr_step h₁ hc
  cases off with
  | some off =>
    simp only [makes_bind] at h
    obtain ⟨_, c₂, h₂, h⟩ := h
    exact ⟨_, (hA.step.andIdle (.noteSlot h₂)).moveInto h, hA.footprint.store rfl⟩
  | none =>
    dsimp only at h
    rcases hb : (if p.ownerFn then none else p.bareField name) with _ | ⟨owner, isValue⟩
    · rw [hb] at h
      exact nomatch (h : none = some _)
    · rw [hb] at h
      simp only [makes_bind, makes_pure] at h
      obtain ⟨_, c₂, h₂, _, c₃, h₃, _, c₄, h₄, -, rfl⟩ := h
      refine ⟨_, ((hA.step.andIdle (.addConst h₂)).andIdle (.addConst h₃)).andEmit h₄ trivial, ?_⟩
      rw [Option.toList_none, List.append_nil]
      exact hA.footprint.consume

theorem compileCondition_step {cond : Expr} {jf : ℕ}
    (h : compileCondition p cond c.nextReg c = some (jf, c')) (hc : c.nextReg ≤ c.peakReg) :
    ∃ A, StmtStep cond.high cond.slots [] c c' A := by
  obtain ⟨reg, c₁, h₁, h⟩ := makes_bind.mp h
  obtain ⟨k, c₂, h₂, h⟩ := makes_bind.mp h
  replace h := (makes_bind.mp h)
  simp only [makes_get] at h
  obtain ⟨_, _, ⟨rfl, rfl⟩, h⟩ := h
  obtain ⟨A, hA⟩ := compileExpr_step h₁ hc
  have g := hA.step.andEmit h₂ trivial
  have hF : Footprint (A ++ [(none, [reg])]) c.nextReg (c.nextReg + cond.high) cond.slots [] [] := hA.footprint.consume
  split at h
  · simp only [makes_bind, makes_pure] at h
    obtain ⟨_, c₃, h₄, _, c₄, h₅, -, rfl⟩ := h
    obtain ⟨D, g', hD⟩ := g.emitStringDrops h₄ le_rfl
      (g.nextReg.trans_le (Nat.add_le_add_left cond.keep_le_high _))
    exact ⟨_, g'.andSetNextReg h₅, hF.andDrops hD⟩
  · simp only [makes_bind, makes_pure] at h
    obtain ⟨_, c₃, h₄, -, rfl⟩ := h
    exact ⟨_, g.andSetNextReg h₄, hF⟩

theorem StmtStep.trans {high' : ℕ} {slots' stores' : List ℕ} {B : List Use}
    (h : StmtStep high slots stores c c₁ A) (h' : StmtStep high' slots' stores' c₁ c₂ B) :
    StmtStep (max high high') (slots ++ slots') (stores ++ stores') c c₂ (A ++ B) := by
  have hn := h.step.nextReg
  have hp := h.step.peakReg
  refine ⟨(h.step.trans h'.step).congr hn (by omega), ?_⟩
  exact (h.footprint.widen le_rfl (by omega)).append (h'.footprint.widen (by omega) (by omega))

theorem StmtStep.andJump {k t : ℕ}
    (h : StmtStep high slots stores c c₁ A) (h₁ : emit (.jump t) c₁ = some (k, c₂)) :
    StmtStep high slots stores c c₂ (A ++ [(none, [])]) :=
  ⟨h.step.andEmit h₁ trivial, h.footprint.inside (by simp) (by simp)⟩

theorem StmtStep.andIdle
    (h : StmtStep high slots stores c c₁ A) (h₁ : Step c₁ c₂ [] c₁.nextReg c₁.peakReg) :
    StmtStep high slots stores c c₂ A :=
  ⟨h.step.andIdle h₁, h.footprint⟩

theorem compileNodes_step {body : List Stmt}
    (ih : ∀ st ∈ body, ∀ {c c' : Chunk} {u : Unit}, compileNode p st c = some (u, c') → c.nextReg ≤ c.peakReg →
      ∃ A, StmtStep st.high st.slots st.stores c c' A)
    (h : compileNodes p body c = some (u, c')) (hc : c.nextReg ≤ c.peakReg) :
    ∃ A, StmtStep (Stmt.blockHigh body) (Stmt.blockSlots body) (Stmt.blockStores body) c c' A := by
  induction body generalizing c with
  | nil =>
    simp only [compileNodes, makes_pure] at h
    obtain ⟨-, rfl⟩ := h
    exact ⟨[], (Step.init _).congr rfl (Nat.max_eq_left hc).symm, .nil _ _⟩
  | cons st body ihbody =>
    obtain ⟨hst, hbody⟩ := List.forall_mem_cons.mp ih
    simp only [compileNodes, makes_bind] at h
    obtain ⟨_, c₁, h₁, h₂⟩ := h
    obtain ⟨A, hA⟩ := hst h₁ hc
    obtain ⟨B, hB⟩ := ihbody hbody h₂ hA.le
    exact ⟨_, hA.trans hB⟩

theorem compileNode_step {st : Stmt} (h : compileNode p st c = some (u, c'))
    (hc : c.nextReg ≤ c.peakReg) : ∃ A, StmtStep st.high st.slots st.stores c c' A := by
  induction st generalizing c c' u with
  | varDecl _ name e _ ref | assign name e ref =>
    simp only [compileNode, makes_bind, makes_get] at h
    obtain ⟨_, _, ⟨rfl, rfl⟩, _, c₁, h₁, h₂⟩ := h
    obtain ⟨A, g, hF⟩ := compileStore_step h₁ hc
    exact StmtStep.finish g (Nat.add_le_add_left e.keep_le_high _) hF h₂
  | ifStmt cond thn els ihThen ihElse =>
    cases els with
    | none =>
      simp only [compileNode, makes_bind, makes_get] at h
      obtain ⟨_, _, ⟨rfl, rfl⟩, jf, c₁, h₁, _, c₂, h₂, _, c₃, h₃, h⟩ := h
      obtain ⟨A, hA⟩ := compileCondition_step h₁ hc
      obtain ⟨B, hB⟩ := compileNodes_step ihThen h₂ hA.le
      have hAB := (hA.trans hB).andIdle (.patch h₃)
      exact StmtStep.finish hAB.step (Nat.le_add_right _ _) hAB.footprint h
    | some els =>
      simp only [compileNode, makes_bind, makes_get] at h
      obtain ⟨_, _, ⟨rfl, rfl⟩, jf, c₁, h₁, _, c₂, h₂, jmp, c₃, h₃, _, c₄, h₄, _, c₅, h₅, _, c₆, h₆, _, c₇, h₇,
        h⟩ := h
      obtain ⟨A, hA⟩ := compileCondition_step h₁ hc
      obtain ⟨B, hB⟩ := compileNodes_step ihThen h₂ hA.le
      have hAB := ((hA.trans hB).andJump h₃).andIdle (.patch h₄)
      have hAB := hAB.andIdle ((Step.setNextReg h₅).congr hAB.step.nextReg.symm rfl)
      obtain ⟨E, hE⟩ := compileNodes_step (ihElse els rfl) h₆ hAB.le
      have hABE := (hAB.trans hE).andIdle (.patch h₇)
      rw [Nat.max_assoc] at hABE
      exact StmtStep.finish hABE.step (Nat.le_add_right _ _) hABE.footprint h
  | whileStmt cond body ih =>
    simp only [compileNode, makes_bind, makes_get] at h
    obtain ⟨_, _, ⟨rfl, rfl⟩, _, _, ⟨rfl, rfl⟩, jf, c₁, h₁, _, c₂, h₂, _, c₃, h₃, _, c₄, h₄, h⟩ := h
    obtain ⟨A, hA⟩ := compileCondition_step h₁ hc
    obtain ⟨B, hB⟩ := compileNodes_step ih h₂ hA.le
    have hAB := ((hA.trans hB).andJump h₃).andIdle (.patch h₄)
    exact StmtStep.finish hAB.step (Nat.le_add_right _ _) hAB.footprint h
  | memberAssign owner field e =>
    simp only [compileNode, makes_bind, makes_get] at h
    obtain ⟨_, _, ⟨rfl, rfl⟩, _, c₁, h₁, _, c₂, h₂, src, c₃, h₃, _, c₄, h₄, h⟩ := h
    have g := (Step.addConst h₁).andIdle (.addConst h₂)
    obtain ⟨A, hA⟩ := compileExpr_step h₃ (g.le hc)
    replace hA := hA.after g
    exact StmtStep.finish (hA.step.andEmit h₄ trivial) (Nat.add_le_add_left e.keep_le_high _)
      hA.footprint.consume h
  | arrAssign name ref index value =>
    simp only [compileNode] at h
    replace h := makes_bind.mp h
    simp only [makes_get] at h
    obtain ⟨_, c, ⟨rfl, rfl⟩, h⟩ := h
    split at h
    · cases (h : none = some _)
    · simp only [makes_bind] at h
      obtain ⟨_, c₁, h₁, idx, c₂, h₂, _, c₃, h₃, prep, c₄, h₄, v, c₅, h₅, _, c₆, h₆, _, c₇, h₇, h⟩ := h
      have g₁ := Step.noteSlot? h₁
      obtain ⟨A, hA⟩ := compileExpr_step h₂ (g₁.le hc)
      replace hA := hA.after g₁
      have g₄ := (hA.step.andIdle (.addConst h₃)).andEmit h₄ trivial
      have hn := g₄.nextReg
      have hp := g₄.peakReg
      have hkeep := index.keep_le_high
      obtain ⟨B, hB⟩ := compileExpr_step h₅ (by omega)
      have hkeep' := value.keep_le_high
      -- the index is read when the target is prepared and again by the store
      have hprep : Footprint (A ++ [(none, [idx])]) c.nextReg (c.nextReg + max index.high (index.keep + value.high))
          index.slots [] [idx] :=
        (hA.footprint.widen le_rfl (by omega)).andThen (by simp) (fun x hx => .inl hx) (fun x hx => hx)
          fun x hx => .inl hx
      have hset := (hprep.append (hB.footprint.widen (by omega) (by omega))).andThen
        (show ∀ x ∈ (none : Option ℕ), _ by simp) (show ∀ x ∈ [v, idx], x ∈ [idx, v] ∨ _ by simp +contextual)
        (by simp) (show ∀ x ∈ [], _ by simp)
      refine StmtStep.finish (((g₄.trans hB.step).andEmit h₆ trivial).andIdle (.patch h₇) |>.congr rfl ?_) ?_ hset h
      · rw [Stmt.high]
        omega
      · rw [Stmt.high]
        omega
  | exprStmt call =>
    cases call with
    | funcCall _ args | memberCall _ _ args =>
      simp only [compileNode, makes_bind, makes_get] at h
      obtain ⟨_, _, ⟨rfl, rfl⟩, r, c₁, h₁, h⟩ := h
      obtain ⟨A, hA⟩ := compileExpr_step h₁ hc
      exact StmtStep.finish hA.step (Nat.add_le_add_left (keep_le_high _) _)
        (hA.footprint.discard (hA.computed rfl)) h
    | _ =>
      unfold compileNode at h
      cases (h : none = some _)
  | returnStmt value =>
    cases value with
    | none =>
      simp only [compileNode, makes_bind, makes_get] at h
      obtain ⟨_, _, ⟨rfl, rfl⟩, _, c₁, h₁, h⟩ := h
      exact StmtStep.finish ((Step.emit h₁ trivial).congr rfl (Nat.max_eq_left hc).symm) le_rfl
        ((Footprint.nil _ _).inside (by simp [dest]) (by simp [operands])) h
    | some value =>
      simp only [compileNode, makes_bind, makes_get] at h
      obtain ⟨_, _, ⟨rfl, rfl⟩, r, c₁, h₁, _, c₂, h₂, h⟩ := h
      obtain ⟨A, hA⟩ := compileExpr_step h₁ hc
      exact StmtStep.finish (hA.step.andEmit h₂ trivial) (Nat.add_le_add_left (keep_le_high _) _)
        hA.footprint.consume h
  | forStmt | arrDecl | funcDecl | blockDecl | typeofInst | danger | free | importStd =>
    unfold compileNode at h
    cases (h : none = some _)

end Statements

section Chunks

variable {p : Probe}

inductive Source where
  | loop (cond : Expr) (body : List Stmt)
  | func (fn : FuncDecl)

namespace Source

def compile (p : Probe) : Source → Option Chunk
  | .loop cond body => chunkCompileLoop p cond body
  | .func fn => chunkCompileFn p fn

def stmts : Source → List Stmt
  | .loop cond body => [.whileStmt cond body]
  | .func fn => fn.body

/-- The most temporaries that the source takes at once; it is zero when every expression of the source is a
variable with a slot. -/
def high (src : Source) : ℕ := Stmt.blockHigh src.stmts

end Source

theorem Step.chunk {c chunk : Chunk} {A : List Use} {high : ℕ} {slots stores : List ℕ} {i : Instr}
    (h : StmtStep high slots stores Chunk.init c A) (hi : i.use = (none, []))
    (hchunk : chunk = { c with nextReg := c.peakReg, code := c.code ++ [i] }) (hlit : i.Literal) :
    (chunk.nextReg = firstTemp + high ∧
      Footprint (chunk.code.map use) firstTemp (firstTemp + high) slots stores []) ∧ chunk.Literal := by
  subst hchunk
  refine ⟨⟨h.step.peakReg.trans (Nat.max_eq_right (Nat.le_add_right _ _)), ?_⟩, ?_⟩
  · have huses : c.code.map use = A := h.step.uses
    rw [List.map_append, List.map_singleton, huses, hi]
    exact h.footprint.inside (by simp) (by simp)
  · have hc : c.Literal := h.step.literal (by simp [Chunk.Literal, Chunk.init])
    exact List.forall_mem_append.mpr ⟨hc, by simpa using hlit⟩

theorem compile_chunk {src : Source} {chunk : Chunk} (h : src.compile p = some chunk) :
    (chunk.nextReg = firstTemp + src.high ∧
      Footprint (chunk.code.map use) firstTemp (firstTemp + src.high) (Stmt.blockSlots src.stmts)
        (Stmt.blockStores src.stmts) []) ∧ chunk.Literal := by
  cases src with
  | loop cond body =>
    obtain ⟨⟨_, c⟩, hc, h⟩ := Option.bind_eq_some_iff.mp (show chunkCompileLoop p cond body = _ from h)
    have hnodes : compileNodes p [.whileStmt cond body] Chunk.init = some ((), c) := by
      simp only [compileNodes, makes_bind, makes_pure]
      exact ⟨(), c, hc, trivial, rfl⟩
    obtain ⟨A, hA⟩ := compileNodes_step (fun st _ => compileNode_step) hnodes le_rfl
    exact Step.chunk hA rfl (Option.some.inj h).symm trivial
  | func fn =>
    obtain ⟨⟨_, c⟩, hc, h⟩ := Option.bind_eq_some_iff.mp (show chunkCompileFn p fn = _ from h)
    obtain ⟨A, hA⟩ := compileNodes_step (fun st _ => compileNode_step) hc le_rfl
    exact Step.chunk hA rfl (Option.some.inj h).symm trivial

end Chunks

end Registers

end Fluxa
