import Fluxa.Registers

/-! Slots against registers. The resolver hands out up to `symMax` slots, the compiler takes its temporaries
from register `firstTemp` on, and a call allocates registers for the temporaries and the parameters. Both
numbers are too small for a frame that is large enough, which is shown on a family of programs with as many
variables as one likes. -/

namespace Fluxa

namespace Registers

section Crowded

/-- The name of the variable that gets the slot `i`. -/
def slotName (i : ℕ) : Ident := String.ofList (List.replicate (i + 1) 'v')

theorem slotName_injective : Function.Injective slotName := by
  intro i j h
  have hlen := congrArg List.length (String.ofList_injective h)
  simpa using hlen

/-- The frame of `n` variables. -/
def crowdedFrame (n : ℕ) (hn : n ≤ symMax) : SymTable where
  names := (List.range n).map slotName
  nodup := List.nodup_range.map slotName_injective
  size_le := by simpa using hn

theorem symtableDeclare_crowdedFrame {n : ℕ} (hn : n + 1 ≤ symMax) :
    symtableDeclare (crowdedFrame n (by omega)) (slotName n) = (crowdedFrame (n + 1) hn, some n) := by
  have hfresh : (crowdedFrame n (by omega)).names.idxOf? (slotName n) = none := by
    simp [crowdedFrame, slotName_injective.eq_iff]
  have hlen : (crowdedFrame n (by omega)).names.length = n := by simp [crowdedFrame]
  unfold symtableDeclare
  split
  next i hi => simp [hi] at hfresh
  next =>
    rw [dif_pos (by omega)]
    simp [crowdedFrame, SymTable.add, List.range_succ]

/-- `int v = 0`, `int vv = v` and so on. -/
def localDecl (i : ℕ) : Stmt :=
  .varDecl .int (slotName i) (if i = 0 then .intLit 0 else .identifier (slotName 0) ⟨none, false⟩) false
    ⟨none, false⟩

def resolvedDecl (warm : Bool) (i : ℕ) : Stmt :=
  .varDecl .int (slotName i) (if i = 0 then .intLit 0 else .identifier (slotName 0) ⟨some 0, warm⟩) false
    ⟨some i, warm⟩

theorem symtableFind_crowdedFrame {n : ℕ} (hn : n ≤ symMax) (hpos : 0 < n) (parents : List SymTable) :
    symtableFind (crowdedFrame n hn :: parents) (slotName 0) = some 0 := by
  rw [symtableFind_of_mem]
  · apply SymTable.idxOf?_of_getElem?
    simp [crowdedFrame, hpos]
  · simp [crowdedFrame, hpos, slotName_injective.eq_iff]

theorem resolveStmt_localDecl {n : ℕ} (hn : n + 1 ≤ symMax) (cap inFunc top used : ℕ) (parents : List SymTable) :
    resolveStmt cap parents inFunc top (localDecl n) ⟨crowdedFrame n (by omega), used⟩ =
      some (resolvedDecl (decide (0 < inFunc)) n, ⟨crowdedFrame (n + 1) hn, used⟩) := by
  rw [localDecl, resolveStmt, symtableDeclare_crowdedFrame hn]
  by_cases h : n = 0
  · subst h
    simp [resolvedDecl, resolveExpr]
  · simp [resolvedDecl, resolveExpr, h, ResolveCtx.identRef,
      symtableFind_crowdedFrame _ (Nat.pos_of_ne_zero h)]

theorem resolveStmts_localDecls {n k : ℕ} (hk : n + k ≤ symMax) (cap inFunc used : ℕ) (parents : List SymTable)
    (rest : List Stmt) (hrest : k + rest.length < workStackCap) :
    resolveStmts cap parents inFunc 0 ((List.range' n k).map localDecl ++ rest)
        ⟨crowdedFrame n (by omega), used⟩ =
      (resolveStmts cap parents inFunc 0 rest ⟨crowdedFrame (n + k) hk, used⟩).map fun r =>
        ((List.range' n k).map (resolvedDecl (decide (0 < inFunc))) ++ r.1, r.2) := by
  induction k generalizing n with
  | zero => simp
  | succ k ih =>
    have hnext := ih (n := n + 1) (by omega) (by omega)
    have heq : n + 1 + k = n + (k + 1) := by omega
    simp only [heq] at hnext
    rw [List.range'_succ, List.map_cons, List.cons_append, resolveStmts, if_pos (by simp; omega),
      resolveStmt_localDecl (by omega)]
    simp only [Option.bind_eq_bind, Option.bind_some, hnext, Option.bind_map]
    cases resolveStmts cap parents inFunc 0 rest ⟨crowdedFrame (n + (k + 1)) hk, used⟩ <;> simp

/-- The condition of `while v < 10 { v = v + 1 }`. -/
def countCond (off : Option ℕ) : Expr := .binary .lt (.identifier (slotName 0) ⟨off, false⟩) (.intLit 10)

def countBody (off : Option ℕ) : List Stmt :=
  [.assign (slotName 0) (.binary .add (.identifier (slotName 0) ⟨off, false⟩) (.intLit 1)) ⟨off, false⟩]

theorem resolverRun_countLoop {n : ℕ} (hn : n ≤ symMax) (hpos : 0 < n) (cap : ℕ) :
    resolverRun cap ((List.range' 0 n).map localDecl ++ [.whileStmt (countCond none) (countBody none)]) =
      some ((List.range' 0 n).map (resolvedDecl false) ++
        [.whileStmt (countCond (some 0)) (countBody (some 0))]) := by
  have hrun := resolveStmts_localDecls (n := 0) (k := n) (by omega) cap 0 0 []
    [.whileStmt (countCond none) (countBody none)] (by simp [workStackCap]; unfold symMax at hn; omega)
  simp only [Nat.zero_add] at hrun
  have hempty : crowdedFrame 0 (Nat.zero_le _) = SymTable.empty := rfl
  rw [resolverRun, ← hempty, hrun]
  simp [resolveStmts, resolveStmt, countCond, countBody, resolveExpr, ResolveCtx.identRef, ResolveCtx.nameRef,
    symtableFind_crowdedFrame hn hpos, workStackCap]

/-- A function with `n` variables. -/
def crowdedFn (n : ℕ) : FuncDecl := ⟨0, "f", [], .nil, (List.range' 0 n).map (resolvedDecl true)⟩

theorem resolverRun_crowdedFn {n : ℕ} (hn : n ≤ symMax) :
    resolverRun 1 [.funcDecl 0 "f" [] .nil ((List.range' 0 n).map localDecl)] =
      some [.funcDecl 0 "f" [] .nil (crowdedFn n).body] := by
  have hrun := resolveStmts_localDecls (n := 0) (k := n) (by omega) 1 1 1 [(symtableDeclare .empty "f").1] []
    (by simp [workStackCap]; unfold symMax at hn; omega)
  simp only [Nat.zero_add, List.append_nil] at hrun
  have hempty : crowdedFrame 0 (Nat.zero_le _) = paramTable [] := rfl
  rw [hempty] at hrun
  simp [resolverRun, resolveStmts, resolveStmt, ResolveState.allocScope, ResolveState.declare, hrun, crowdedFn,
    workStackCap]

/-- A runtime without Blocks and arrays. -/
def bareProbe : Probe := ⟨true, fun _ _ => false, fun _ => none, fun _ _ => false, fun _ _ => true, fun _ => false⟩

end Crowded

section Temporaries

variable {p : Probe}

/-- The registers that are set to nil before the chunk of a loop runs. -/
def Source.Initialised (chunk : Chunk) : Source → ℕ → Prop
  | .loop _ _, r => firstTemp ≤ r ∧ r < chunk.nextReg
  | .func _, _ => False

/-- The slots of variables are written where the source stores into them and nowhere else. -/
def Spares (src : Source) (chunk : Chunk) (slots : List ℕ) : Prop :=
  ∀ r ∈ slots,
    (chunk.code.filterMap Instr.dest).count r = (Stmt.blockStores src.stmts).count r ∧ ¬ src.Initialised chunk r

theorem filterMap_dest (code : List Instr) : (code.map Instr.use).filterMap Prod.fst = code.filterMap Instr.dest := by
  rw [List.filterMap_map]
  rfl

/-- Temporaries and variables are apart as long as no variable has a slot in the band of the temporaries, which is as
wide as the source needs it; for a loop there is no other case, since the band is initialised as a whole. -/
theorem spares_frame_iff {src : Source} {chunk : Chunk} (h : src.compile p = some chunk) (slots : List ℕ) :
    ((∀ r ∈ slots, r < firstTemp ∨ firstTemp + src.high ≤ r) → Spares src chunk slots) ∧
      ∀ cond body, src = .loop cond body → Spares src chunk slots →
        ∀ r ∈ slots, r < firstTemp ∨ firstTemp + src.high ≤ r := by
  obtain ⟨⟨hnext, hF⟩, -⟩ := compile_chunk h
  constructor
  · intro hapart r hr
    have hband : ¬ Band firstTemp (firstTemp + src.high) r := by
      rintro ⟨hlo, hhi⟩
      have := hapart r hr
      omega
    refine ⟨?_, ?_⟩
    · rw [← filterMap_dest]
      exact hF.writes r hband
    · cases src with
      | loop cond body => exact fun hr => hband (hnext ▸ hr)
      | func fn => exact id
  · rintro cond body rfl hspares r hr
    by_contra hband
    rw [not_or, Nat.not_lt, Nat.not_le] at hband
    exact (hspares r hr).2 ⟨hband.1, by rw [hnext]; exact hband.2⟩

theorem count_loop_spares_its_frame :
    Spares (.loop (countCond (some 0)) (countBody (some 0)))
      (((Source.loop (countCond (some 0)) (countBody (some 0))).compile bareProbe).get (by decide +kernel))
      (List.range 128) :=
  (spares_frame_iff (Option.some_get _).symm _).1 (by decide +kernel)

/-- With 129 variables the loop sets the last one to nil before it runs, and a function loads its literal over
the last one. -/
theorem variable_is_overwritten :
    (resolverRun 256 ((List.range' 0 129).map localDecl ++ [.whileStmt (countCond none) (countBody none)]) =
        some ((List.range' 0 129).map (resolvedDecl false) ++
          [.whileStmt (countCond (some 0)) (countBody (some 0))]) ∧
      ∃ chunk, chunkCompileLoop bareProbe (countCond (some 0)) (countBody (some 0)) = some chunk ∧
        ¬ Spares (.loop (countCond (some 0)) (countBody (some 0))) chunk (List.range 129)) ∧
    resolverRun 1 [.funcDecl 0 "f" [] .nil ((List.range' 0 129).map localDecl)] =
        some [.funcDecl 0 "f" [] .nil (crowdedFn 129).body] ∧
      ∃ chunk, chunkCompileFn bareProbe (crowdedFn 129) = some chunk ∧
        ¬ Spares (.func (crowdedFn 129)) chunk (List.range 129) := by
  refine ⟨⟨resolverRun_countLoop (by decide) (by decide) 256, ?_⟩, resolverRun_crowdedFn (by decide), ?_⟩
  · have hloop : (chunkCompileLoop bareProbe (countCond (some 0)) (countBody (some 0))).map Chunk.nextReg =
        some 130 := by decide +kernel
    obtain ⟨chunk, hchunk, hnext⟩ := Option.map_eq_some_iff.mp hloop
    refine ⟨chunk, hchunk, fun h => (h 128 (by simp)).2 ⟨by decide, ?_⟩⟩
    rw [hnext]
    decide
  · have hfn : (chunkCompileFn bareProbe (crowdedFn 129)).map (fun chunk =>
        (chunk.code.filterMap Instr.dest).count 128) = some 2 := by decide +kernel
    have hstores : (Stmt.blockStores (crowdedFn 129).body).count 128 = 1 := by decide +kernel
    obtain ⟨chunk, hchunk, hwrites⟩ := Option.map_eq_some_iff.mp hfn
    refine ⟨chunk, hchunk, fun h => ?_⟩
    have heq := (h 128 (by simp)).1
    rw [hwrites] at heq
    exact absurd (heq.trans hstores) (by decide)

end Temporaries

section Calls

variable {p : Probe}

/-- `vm_call_callback` allocates the registers of a call. -/
def regCount (chunk : Chunk) (fn : FuncDecl) : ℕ :=
  let count := chunk.nextReg + 32
  if count < fn.paramCount + 32 then fn.paramCount + 32 else count

theorem lt_regCount_iff (chunk : Chunk) (fn : FuncDecl) (r : ℕ) :
    r < regCount chunk fn ↔ r < max chunk.nextReg fn.paramCount + 32 := by
  unfold regCount
  dsimp only
  split <;> omega

/-- The registers of a call are enough for the temporaries, and for the slots of the body only when these are
below the same number. -/
theorem operands_lt_regCount_iff {fn : FuncDecl} {chunk : Chunk} (h : chunkCompileFn p fn = some chunk) :
    (∀ i ∈ chunk.code, ∀ r ∈ i.operands, r < regCount chunk fn) ↔
      ∀ x ∈ Stmt.blockSlots fn.body, x < max (firstTemp + Stmt.blockHigh fn.body) fn.paramCount + 32 := by
  obtain ⟨⟨hnext, hF⟩, -⟩ := compile_chunk (show (Source.func fn).compile p = some chunk from h)
  simp only [lt_regCount_iff, hnext]
  constructor
  · intro hops x hx
    obtain hx | ⟨u, hu, hx⟩ := hF.used x hx
    · exact nomatch hx
    · obtain ⟨i, hi, rfl⟩ := List.mem_map.mp hu
      exact hops i hi x hx
  · intro hslots i hi r hr
    rcases hF.named i.use (List.mem_map_of_mem hi) r hr with hr | ⟨-, hr⟩
    · exact hslots r hr
    · exact hr.trans_le ((Nat.le_max_left _ _).trans (Nat.le_add_right _ _))

theorem small_function_has_its_registers : ∃ chunk, chunkCompileFn bareProbe (crowdedFn 161) = some chunk ∧
    ∀ i ∈ chunk.code, ∀ r ∈ i.operands, r < regCount chunk (crowdedFn 161) := by
  have hfn : (chunkCompileFn bareProbe (crowdedFn 161)).isSome := by decide +kernel
  obtain ⟨chunk, hchunk⟩ := Option.isSome_iff_exists.mp hfn
  exact ⟨chunk, hchunk, (operands_lt_regCount_iff hchunk).2 (by decide +kernel)⟩

/-- With 162 variables the last one has a register that is not there. -/
theorem last_variable_has_no_register :
    resolverRun 1 [.funcDecl 0 "f" [] .nil ((List.range' 0 162).map localDecl)] =
        some [.funcDecl 0 "f" [] .nil (crowdedFn 162).body] ∧
      ∃ chunk, chunkCompileFn bareProbe (crowdedFn 162) = some chunk ∧ regCount chunk (crowdedFn 162) = 161 ∧
        ∃ i ∈ chunk.code, 161 ∈ i.operands := by
  refine ⟨resolverRun_crowdedFn (by decide), ?_⟩
  have hfn : (chunkCompileFn bareProbe (crowdedFn 162)).map (fun chunk =>
      (regCount chunk (crowdedFn 162), chunk.code.any fun i => i.operands.contains 161)) = some (161, true) := by
    decide +kernel
  obtain ⟨chunk, hchunk, hpair⟩ := Option.map_eq_some_iff.mp hfn
  obtain ⟨hcount, hany⟩ := Prod.mk.inj hpair
  obtain ⟨i, hi, hops⟩ := List.any_eq_true.mp hany
  exact ⟨chunk, hchunk, hcount, i, hi, List.contains_iff_mem.mp hops⟩

end Calls

end Registers

end Fluxa
