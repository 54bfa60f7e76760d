import Fluxa.BigStep
import Fluxa.LoopSpec
import Fluxa.Pool

/-! The tree walker runs a loop as its meaning says, as long as it reports no error. An error outside `danger` sets
`had_error` and stops it; inside `danger` it is one more entry on the error stack, and the loop goes on. -/

namespace Fluxa

namespace Runtime

variable (rt : Runtime) (x : Ident) (ref : Ref)

/-- Inside a call a name that is not warm is read past its slot if the pool has it. -/
def slotHidden : Bool := !ref.warm && decide (0 < rt.callDepth) && rt.poolHas x

/-- What is read under the name if its slot is empty. -/
def boundElsewhere : Bool :=
  (rt.scope.get? x).isSome || !ref.warm &&
    ((rt.currentField x).isSome || decide (0 < rt.callDepth) && (rt.globalTable.get? x).isSome)

/-- The errors a `danger` block has seen so far. -/
def dangerErrors : ℕ := if 0 < rt.dangerDepth then min rt.errStack.length errStackCap else 0

variable {rt x}

theorem lookup_of_slotValue {off : ℕ} {warm : Bool} {v : Value} (hidden : rt.slotHidden x ⟨some off, warm⟩ = false)
    (h : rt.slotValue off = some v) : rt.lookup ⟨some off, warm⟩ x = some v := by
  cases warm <;> simp_all [slotHidden, lookup]

theorem lookup_of_empty {off : ℕ} {warm : Bool} (hidden : rt.slotHidden x ⟨some off, warm⟩ = false)
    (h : rt.slotValue off = none) (hbound : rt.boundElsewhere x ⟨some off, warm⟩ = false) :
    rt.lookup ⟨some off, warm⟩ x = none := by
  cases warm <;> simp_all [slotHidden, boundElsewhere, lookup]

end Runtime

namespace Loop

open Machine

section Errors

/-- The errors do not become fewer. -/
structure Onward (s t : Runtime) : Prop where
  danger : s.dangerErrors ≤ t.dangerErrors
  flag : s.hadError = true → t.hadError = true

/-- There is an error that was not there when there were `n`. -/
def Lost (n : ℕ) (t : Runtime) : Prop := t.hadError = true ∨ n < t.dangerErrors

variable {env : Env} {s t u : Runtime} {v : Value}

theorem Onward.refl (s : Runtime) : Onward s s := ⟨le_rfl, id⟩

theorem Onward.trans (h : Onward s t) (h' : Onward t u) : Onward s u :=
  ⟨h.danger.trans h'.danger, fun hs => h'.flag (h.flag hs)⟩

theorem Lost.onward {n : ℕ} (h : Lost n s) (h' : Onward s t) : Lost n t :=
  h.imp h'.flag fun h => h.trans_le h'.danger

theorem Onward.pushErr (s : Runtime) (e : ErrEntry) : Onward s (s.pushErr e) := by
  refine ⟨?_, id⟩
  simp only [Runtime.dangerErrors, Runtime.pushErr, List.length_take, List.length_cons]
  split <;> omega

theorem Onward.raise (s : Runtime) (e : RtError) : Onward s (s.raise e) := by
  unfold Runtime.raise
  split
  · exact .pushErr s _
  · exact ⟨le_rfl, fun _ => rfl⟩

theorem lost_raise {n : ℕ} (hn : n < errStackCap) (h : s.dangerErrors = n) (e : RtError) : Lost n (s.raise e) := by
  unfold Runtime.raise
  split
  · next hdanger =>
    rw [Runtime.dangerErrors, if_pos hdanger] at h
    refine .inr ?_
    simp only [Runtime.dangerErrors, Runtime.pushErr, List.length_take, List.length_cons, hdanger, if_true]
    omega
  · exact .inl rfl

theorem Continues.onward {rest : Prop} (h : Continues u v t rest) (hrest : rest → Onward u t) : Onward u t := by
  unfold Continues at h
  split at h
  · exact h.2 ▸ .refl u
  · exact hrest h

theorem Onward.set (s : Runtime) (ref : Ref) (x : Ident) (v : Value) : Onward s (s.set ref x v) := by
  unfold Runtime.set
  split
  · exact ⟨le_rfl, id⟩
  · split <;> exact ⟨le_rfl, id⟩

theorem Onward.cloneValue (s : Runtime) (v : Value) : Onward s (s.cloneValue v).2 := by
  obtain ⟨more, hmore⟩ := s.cloneValue_arrs v
  rw [hmore]
  exact ⟨le_rfl, id⟩

theorem Onward.poolSet (s : Runtime) (x : Ident) (v : Value) : Onward s (s.poolSet x v).1 := by
  have hclone := Onward.cloneValue s v
  unfold Runtime.poolSet
  split
  · split
    · exact .pushErr s _
    · exact ⟨hclone.danger, hclone.flag⟩
  · have hagain := hclone.trans (.cloneValue _ v)
    exact ⟨hagain.danger, hagain.flag⟩

theorem Onward.poolStore (s : Runtime) (x : Ident) (v : Value) : Onward s (s.poolStore x v) :=
  ⟨(Onward.poolSet s x v).danger, (Onward.poolSet s x v).flag⟩

theorem Onward.storeAssign (s : Runtime) (x : Ident) (ref : Ref) (v : Value) : Onward s (s.storeAssign x ref v) := by
  unfold Runtime.storeAssign
  split
  · exact ⟨le_rfl, id⟩
  · split
    · exact .raise s _
    · dsimp only
      split
      · exact (Onward.set s ref x v).trans (.poolStore _ x v)
      · exact .set s ref x v

theorem Onward.assignVar (s : Runtime) (x : Ident) (ref : Ref) (v : Value) (n : ℕ) :
    Onward s (s.assignVar x ref v n) := by
  unfold Runtime.assignVar
  split
  · split
    · exact (Onward.raise s _).trans (.storeAssign _ x ref v)
    · split
      · exact .raise s _
      · exact .storeAssign s x ref v
  · exact .storeAssign s x ref v

theorem Onward.declareVar (s : Runtime) (ty : TypeName) (ref : Ref) (x : Ident) (v : Value) (n : ℕ) :
    Onward s (s.declareVar ty ref x v n) := by
  unfold Runtime.declareVar
  split
  · exact .set s ref x v
  · split
    · exact .set s ref x v
    · exact .raise s _

theorem Onward.poolUpdate (s : Runtime) (x : Ident) (f : PrstEntry → PrstEntry) : Onward s (s.poolUpdate x f) :=
  ⟨le_rfl, id⟩

theorem Onward.globalSet (s : Runtime) (x : Ident) (v : Value) : Onward s (s.globalSet x v) := ⟨le_rfl, id⟩

theorem Onward.declarePrst (s : Runtime) (ty : TypeName) (ref : Ref) (x : Ident) (v : Value) :
    Onward s (s.declarePrst ty ref x v) := by
  have hpool := Onward.poolSet s x v
  unfold Runtime.declarePrst
  split
  · dsimp only
    split
    · exact ((hpool.trans (.set _ ref x v)).trans (.poolUpdate _ x _)).trans (.globalSet _ x v)
    · exact hpool
  · exact .raise s _

theorem Onward.rebuildPrst (s : Runtime) (ty : TypeName) (ref : Ref) (x : Ident) (v : Value) :
    Onward s (s.rebuildPrst ty ref x v) := by
  unfold Runtime.rebuildPrst
  split
  · have hpool := (Onward.poolUpdate s x fun e => { e with declaredType := v.type }).trans (.poolSet _ x v)
    exact ((hpool.trans (.poolUpdate _ x _)).trans (.set _ ref x v)).trans (.globalSet _ x v)
  · exact .raise s _

theorem Onward.restorePrst (s : Runtime) (ref : Ref) (x : Ident) (e : PrstEntry) (src : Option Value) :
    Onward s (s.restorePrst ref x e src) := by
  have hpool (v : Value) := (Onward.poolSet s x v).trans (.poolUpdate _ x fun e => { e with stackOffset := ref.off })
  unfold Runtime.restorePrst
  dsimp only
  split
  · exact (((hpool _).trans (.poolUpdate _ x _)).trans (.set _ ref x _)).trans (.globalSet _ x _)
  · exact ((hpool _).trans (.set _ ref x _)).trans (.globalSet _ x _)

theorem onward_calls {i : Proc} (h : (interp env).Calls i s v t)
    (hrun : (interp env).Runs (step env i) s v t → Onward s t) : Onward s t := by
  cases hs : s.hadError with
  | true => exact ((calls_error hs).mp h).2 ▸ .refl s
  | false => exact hrun ((calls_ok hs).mp h)

theorem onward_expr {e : Expr} (he : InExpr e) (h : (interp env).Calls (.expr e) s v t) : Onward s t := by
  induction e generalizing s v t with
  | intLit | floatLit | boolLit | stringLit =>
    exact onward_calls h fun h => ((runs_pure _ _ _ _).mp h).2 ▸ .refl s
  | identifier x ref =>
    refine onward_calls h fun h => ?_
    have hget := runs_getVar.mp ((runs_evalIdentifier he.1 he.2.1).mp h)
    split at hget
    · exact hget.2 ▸ .refl s
    · exact hget.2 ▸ .raise s _
  | binary op l r ihl ihr =>
    refine onward_calls h fun h => ?_
    obtain ⟨x, u, hl, hrest⟩ := runs_evalBinary.mp h
    refine (ihl he.1 hl).trans (Continues.onward hrest ?_)
    rintro ⟨y, w, hr, hrest⟩
    refine (ihr he.2 hr).trans (Continues.onward hrest fun hop => ?_)
    split at hop
    · exact hop.2 ▸ .refl w
    · exact hop.2 ▸ .raise w _
    · exact hop.elim
  | logic op l r ihl ihr =>
    refine onward_calls h fun h => ?_
    obtain ⟨x, u, hl, hrest⟩ := runs_evalLogic.mp h
    refine (ihl he.1 hl).trans (Continues.onward hrest fun hrest => ?_)
    split at hrest
    · exact hrest.2 ▸ .refl u
    · obtain ⟨y, w, hr, hrest⟩ := hrest
      exact (ihr he.2 hr).trans (Continues.onward hrest fun h => h.2 ▸ .refl w)
  | not e ih =>
    refine onward_calls h fun h => ?_
    obtain ⟨x, u, hx, hrest⟩ := runs_evalNot.mp h
    exact (ih he hx).trans (Continues.onward hrest fun h => h.2 ▸ .refl u)
  | funcCall | memberAccess | memberCall | arrAccess | dynLit | indexedMemberAccess | indexedMemberCall => exact he.elim

theorem onward_runBlock {body : List Stmt}
    (hbody : ∀ p ∈ body, ∀ {s v t}, (interp env).Calls (.stmt p) s v t → Onward s t)
    (h : (interp env).Runs (runBlock body) s v t) : Onward s t := by
  induction body generalizing s with
  | nil => exact (runs_runBlock_nil.mp h).2 ▸ .refl s
  | cons p rest ih =>
    obtain ⟨x, u, hp, hrest⟩ := runs_runBlock_cons.mp h
    refine (hbody p List.mem_cons_self hp).trans ?_
    split at hrest
    · exact hrest.2 ▸ .refl u
    · exact ih (fun q hq => hbody q (List.mem_cons_of_mem p hq)) hrest

theorem onward_whileRound {cond : Expr} {body : List Stmt} (hcond : InExpr cond)
    (hbody : ∀ {s v t}, (interp env).Calls (.block body) s v t → Onward s t) {r : LoopState ⊕ Value}
    (h : (interp env).Runs (whileRound cond body none) s r t) : Onward s t := by
  obtain ⟨x, w, hx, hrest⟩ := runs_whileRound.mp h
  refine (onward_expr hcond hx).trans ?_
  split at hrest
  · exact hrest.2 ▸ .refl w
  · obtain ⟨y, hy, -⟩ := hrest
    exact hbody hy

/-- Induction over the rounds of an interpreted `while` loop without a limit. -/
theorem while_induct {cond : Expr} {body : List Stmt} {P : Runtime → Runtime → Prop}
    (halted : ∀ {s}, s.hadError = true → P s s)
    (last : ∀ {s r t}, (interp env).Runs (whileRound cond body none) s (.inr r) t → P s t)
    (more : ∀ {s u t}, (interp env).Runs (whileRound cond body none) s (.inl (.while cond body none)) u →
      P u t → P s t)
    (h : (interp env).Iterates .loop (LoopState.while cond body none) s v t) : P s t := by
  let Q (j : LoopState) (s : Runtime) (_ : Value) (t : Runtime) : Prop := j = .while cond body none → P s t
  suffices hQ : Q (.while cond body none) s v t from hQ rfl
  refine Iterates.induct (b := Bracket.loop) (P := Q) ?_ ?_ ?_ h
  · intro j s r hhalt _
    refine halted ?_
    by_contra hs
    rw [halt_of_ok (Bool.not_eq_true _ ▸ hs), ite_self] at hhalt
    exact nomatch hhalt
  · rintro j s r t _ hr rfl
    exact last hr
  · rintro j s j' u r t _ hr ih rfl
    obtain ⟨x, w, hx, hrest⟩ := runs_whileRound.mp hr
    have hj : j' = .while cond body none := by
      split at hrest
      · exact nomatch hrest.1
      · obtain ⟨y, -, hj⟩ := hrest
        split at hj
        · exact nomatch hj
        · exact Sum.inl.inj hj
    subst hj
    exact more hr (ih rfl)

theorem onward_evalFor {e : Expr} {f : Value → Update} (he : InExpr e) (h : (interp env).Runs (evalFor e f) s v t)
    (hf : ∀ x u, Onward u ((f x).apply u)) : Onward s t := by
  obtain ⟨x, u, hx, hrest⟩ := runs_evalFor.mp h
  exact (onward_expr he hx).trans (Continues.onward hrest fun h => h.2 ▸ hf x u)

theorem onward_execVarDecl {ty : TypeName} {x : Ident} {init : Expr} {persistent : Bool} {ref : Ref}
    (hinit : InExpr init) (h : (interp env).Runs (execVarDecl ty x init persistent ref) s v t) : Onward s t := by
  rw [execVarDecl, runs_read_bind] at h
  split at h
  · rw [execPrstDecl, runs_read_bind] at h
    split at h
    · exact onward_evalFor hinit h fun w u => .declarePrst u ty ref x w
    · next e _ =>
      split at h
      · exact onward_evalFor hinit h fun w u => .rebuildPrst u ty ref x w
      split at h
      · exact onward_evalFor hinit h fun w u => .restorePrst u ref x e (some w)
      · rw [runs_modify_bind, runs_pure] at h
        exact h.2 ▸ .restorePrst s ref x e none
  · exact onward_evalFor hinit h fun w u => .declareVar u ty ref x w _

theorem onward_stmt (hcompile : env.compileLoops = false) (hlimit : env.whileLimit = none) {p : Stmt} (hp : InStmt p)
    (h : (interp env).Calls (.stmt p) s v t) : Onward s t := by
  induction p generalizing s v t with
  | varDecl ty x init persistent ref =>
    exact onward_calls h (onward_execVarDecl hp.2)
  | assign x value ref =>
    refine onward_calls h fun h => ?_
    obtain ⟨w, u, hw, hrest⟩ := runs_execAssign.mp h
    exact (onward_expr hp.2 hw).trans (Continues.onward hrest fun h => h.2 ▸ .assignVar u x ref w _)
  | ifStmt cond thn els ihthn ihels =>
    obtain ⟨hcond, hthn, hels⟩ := inStmt_if.mp hp
    refine onward_calls h fun h => ?_
    obtain ⟨x, u, hx, hrest⟩ := runs_execIf.mp h
    refine (onward_expr hcond hx).trans ?_
    split at hrest
    · exact onward_calls hrest (onward_runBlock fun q hq => ihthn q hq (inStmts_iff.mp hthn q hq))
    · cases els with
      | none => exact hrest.2 ▸ .refl u
      | some els =>
        exact onward_calls hrest (onward_runBlock fun q hq => ihels els rfl q hq (inStmts_iff.mp (hels els rfl) q hq))
  | whileStmt cond body ih =>
    cases hs : s.hadError with
    | true => exact ((calls_error hs).mp h).2 ▸ .refl s
    | false =>
      have hiter := (runs_execWhile hcompile hs).mp ((calls_ok hs).mp h)
      rw [hlimit] at hiter
      have hbody {s t : Runtime} {v : Value} (h : (interp env).Calls (.block body) s v t) : Onward s t :=
        onward_calls h (onward_runBlock fun q hq => ih q hq (inStmts_iff.mp hp.2 q hq))
      refine while_induct (fun _ => .refl _) (onward_whileRound hp.1 hbody) (fun hr ih => ?_) hiter
      exact (onward_whileRound hp.1 hbody hr).trans ih
  | forStmt | arrDecl | arrAssign | funcDecl | returnStmt | blockDecl | typeofInst | memberAssign | danger | free
  | importStd | exprStmt => exact hp.elim

end Errors

/-- The evaluator's state stands for the state of the loop, with `n` errors so far. -/
structure Mirrors (C : Ctx) (n : ℕ) (st : State) (s : Runtime) : Prop where
  ok : s.hadError = false
  noReturn : s.ret.active = false
  errors : s.dangerErrors = n
  slots : ∀ k < firstTemp, s.stack k = st.slots k
  size : s.stackSize = st.size
  hidden : ∀ x ref, s.slotHidden x ref = C.hidden x ref
  bound : ∀ x ref, C.hidden x ref = false → s.boundElsewhere x ref = C.bound x ref
  field : ∀ x, (s.currentField x).isSome = C.field x
  project : s.mode = .project → C.project = true

/-- The operators mean to the evaluator what the loop takes them to mean. -/
def Ctx.Evaluates (C : Ctx) (env : Env) : Prop := ∀ op x y v, env.evalOp op x y = .value v → C.op op x y = .ok v

section Expressions

variable {C : Ctx} {n : ℕ} {st : State} {env : Env} {s t : Runtime} {v : Value}

/-- A run of the evaluator against what the loop makes of it: an error was reported, the tiers part, or the results
agree. -/
def Follows {α : Type} (n : ℕ) (t : Runtime) (r : Except Fault α) (agrees : α → Prop) : Prop :=
  Lost n t ∨ r = .error .parts ∨ ∃ a, r = .ok a ∧ agrees a

theorem Follows.ok {α : Type} {a : α} {agrees : α → Prop} (h : agrees a) : Follows n t (.ok a) agrees :=
  .inr (.inr ⟨a, rfl, h⟩)

/-- The parts of an evaluation one after the other. -/
theorem Follows.bind {α : Type} {agrees : α → Prop} {u : Runtime} {x : Value} {r : Except Fault Value}
    {k : Value → Except Fault α} {rest : Prop} (hs : s.hadError = false)
    (hr : Follows n u r fun w => w = x ∧ u = s) (hc : Continues u v t rest) (honward : rest → Onward u t)
    (hk : u = s → rest → Follows n t (k x) agrees) : Follows n t (r >>= k) agrees := by
  rcases hr with hr | rfl | ⟨w, rfl, rfl, rfl⟩
  · exact .inl (hr.onward (Continues.onward hc honward))
  · exact .inr (.inl rfl)
  · rw [Continues, hs] at hc
    exact hk rfl hc

theorem Mirrors.lookup (h : Mirrors C n st s) (x : Ident) {off : ℕ} (hoff : off < firstTemp) (warm : Bool) :
    match st.read C x ⟨some off, warm⟩ off with
    | .ok v => s.lookup ⟨some off, warm⟩ x = some v
    | .error .fails => s.lookup ⟨some off, warm⟩ x = none
    | .error .parts => True := by
  have hslot : s.slotValue off = if off < st.size ∧ !(st.slots off).isNil then some (st.slots off) else none := by
    rw [Runtime.slotValue, h.size, h.slots off hoff]
  rw [State.read]
  cases hhidden : C.hidden x ⟨some off, warm⟩ with
  | true => trivial
  | false =>
    have hseen := (h.hidden x _).trans hhidden
    rw [if_neg (by simp)]
    split at hslot
    · next hfull =>
      rw [if_pos hfull]
      exact Runtime.lookup_of_slotValue hseen hslot
    · next hempty =>
      rw [if_neg hempty]
      cases hbound : C.bound x ⟨some off, warm⟩ with
      | true => trivial
      | false => exact Runtime.lookup_of_empty hseen hslot ((h.bound x _ hhidden).trans hbound)

/-- **The evaluator evaluates as the loop means it.** -/
theorem Mirrors.expr (hn : n < errStackCap) (hC : C.Evaluates env) (h : Mirrors C n st s) {e : Expr} (he : InExpr e)
    (hrun : (interp env).Calls (.expr e) s v t) : Follows n t (eval C st e) fun w => w = v ∧ t = s := by
  induction e generalizing v t with
  | intLit | floatLit | boolLit | stringLit =>
    obtain ⟨rfl, rfl⟩ := (runs_pure _ _ _ _).mp ((calls_ok h.ok).mp hrun)
    exact .ok ⟨rfl, rfl⟩
  | identifier x ref =>
    obtain ⟨hnil, herr, off, hoff, href⟩ := he
    obtain ⟨_, warm⟩ := ref
    subst href
    have hget := runs_getVar.mp ((runs_evalIdentifier hnil herr).mp ((calls_ok h.ok).mp hrun))
    have hlook := h.lookup x hoff warm
    change Follows n t (st.read C x ⟨some off, warm⟩ off) _
    split at hlook
    · next w hw =>
      rw [hlook] at hget
      rw [hw]
      exact .ok ⟨hget.1.symm, hget.2⟩
    · rw [hlook] at hget
      exact .inl (hget.2 ▸ lost_raise hn h.errors _)
    · next hparts => exact .inr (.inl hparts)
  | binary op l r ihl ihr =>
    obtain ⟨x, u, hl, hrest⟩ := runs_evalBinary.mp ((calls_ok h.ok).mp hrun)
    refine (ihl he.1 hl).bind h.ok hrest ?_ ?_
    · rintro ⟨y, w, hr, hrest⟩
      refine (onward_expr he.2 hr).trans (Continues.onward hrest fun hop => ?_)
      split at hop
      · exact hop.2 ▸ .refl w
      · exact hop.2 ▸ .raise w _
      · exact hop.elim
    rintro rfl ⟨y, w, hr, hrest⟩
    refine (ihr he.2 hr).bind h.ok hrest (fun hop => ?_) ?_
    · split at hop
      · exact hop.2 ▸ .refl w
      · exact hop.2 ▸ .raise w _
      · exact hop.elim
    rintro rfl hval
    split at hval
    · next z hz =>
      rw [hC op x y z hz]
      exact .ok ⟨hval.1.symm, hval.2⟩
    · exact .inl (hval.2 ▸ lost_raise hn h.errors _)
    · exact hval.elim
  | logic op l r ihl ihr =>
    obtain ⟨x, u, hl, hrest⟩ := runs_evalLogic.mp ((calls_ok h.ok).mp hrun)
    refine (ihl he.1 hl).bind h.ok hrest ?_ ?_
    · intro hrest
      split at hrest
      · exact hrest.2 ▸ .refl u
      · obtain ⟨y, w, hr, hrest⟩ := hrest
        exact (onward_expr he.2 hr).trans (Continues.onward hrest fun h => h.2 ▸ .refl w)
    rintro rfl hrest
    split at hrest
    · next hshort =>
      rw [if_pos hshort]
      exact .ok ⟨hrest.1.symm, hrest.2⟩
    · next hshort =>
      rw [if_neg hshort]
      obtain ⟨y, w, hr, hrest⟩ := hrest
      refine (ihr he.2 hr).bind h.ok hrest (fun h => h.2 ▸ .refl w) ?_
      rintro rfl hres
      exact .ok ⟨hres.1.symm, hres.2⟩
  | not e ih =>
    obtain ⟨x, u, hx, hrest⟩ := runs_evalNot.mp ((calls_ok h.ok).mp hrun)
    refine (ih he hx).bind h.ok hrest (fun h => h.2 ▸ .refl u) ?_
    rintro rfl hres
    exact .ok ⟨hres.1.symm, hres.2⟩
  | funcCall | memberAccess | memberCall | arrAccess | dynLit | indexedMemberAccess | indexedMemberCall => exact he.elim

/-- A condition, which both tiers take the same way or part at. -/
theorem Mirrors.test (hn : n < errStackCap) (hC : C.Evaluates env) (h : Mirrors C n st s) {cond : Expr}
    (hcond : InExpr cond) {x : Value} {u : Runtime} (hrun : (interp env).Calls (.expr cond) s x u) :
    Follows n u (test C st cond) fun b => b = x.truthy ∧ u = s := by
  rcases h.expr hn hC hcond hrun with hlost | hparts | ⟨w, hw, rfl, rfl⟩
  · exact .inl hlost
  · refine .inr (.inl ?_)
    rw [Loop.test, hparts]
    rfl
  · rw [Loop.test, hw, Except.ok_bind]
    split
    · exact .ok ⟨rfl, rfl⟩
    · exact .inr (.inl rfl)

end Expressions

section Stores

variable {C : Ctx} {n : ℕ} {st : State} {s : Runtime} {x : Ident} {off : ℕ}

theorem Mirrors.set (h : Mirrors C n st s) (warm : Bool) (v : Value) :
    Mirrors C n (st.write off v) (s.set ⟨some off, warm⟩ x v) where
  ok := h.ok
  noReturn := h.noReturn
  errors := h.errors
  slots k hk := by
    simp only [Runtime.set, State.write, Function.update_apply]
    rw [h.slots k hk]
  size := by simp only [Runtime.set, State.write, h.size]
  hidden := h.hidden
  bound := h.bound
  field := h.field
  project := h.project

/-- The pool may refuse the value, which is an error. -/
theorem Mirrors.poolStore (h : Mirrors C n st s) (hp : s.poolHas x = true) (v : Value) :
    Lost n (s.poolStore x v) ∨ Mirrors C n st (s.poolStore x v) := by
  have honward := Onward.poolStore s x v
  rcases honward.danger.lt_or_eq with hlt | heq
  · exact .inl (.inr (h.errors ▸ hlt))
  have herrors := heq.symm.trans h.errors
  obtain ⟨pool, more, errs, hstore, hnames⟩ := s.poolStore_spec x v hp
  rw [hstore] at herrors ⊢
  have hpool (y : Ident) : ({ s with prstPool := pool } : Runtime).poolHas y = s.poolHas y :=
    Runtime.poolHas_congr hnames y
  refine .inr { h with
    errors := herrors
    hidden := fun y ref => ?_
    bound := fun y ref hseen => ?_ }
  · rw [← h.hidden y ref]
    exact congrArg (!ref.warm && decide (0 < s.callDepth) && ·) (hpool y)
  · rw [← h.bound y ref hseen]
    simp only [Runtime.boundElsewhere]
    by_cases hy : y = x
    · -- a name that is read past its slot is not concerned
      subst hy
      have hopen := (h.hidden y ref).trans hseen
      rw [Runtime.slotHidden, hp, Bool.and_true, Bool.and_eq_false_iff] at hopen
      rcases hopen with hwarm | hdepth
      · simp only [hwarm, Bool.false_and]
      · simp only [hdepth, Bool.false_and]
        rfl
    · rw [Table.get?_set_of_ne _ v hy]
      rfl

theorem Mirrors.storeAssign (h : Mirrors C n st s) (hx : C.field x = false) (warm : Bool) (v : Value) :
    Lost n (s.storeAssign x ⟨some off, warm⟩ v) ∨
      Mirrors C n (st.write off v) (s.storeAssign x ⟨some off, warm⟩ v) := by
  have hset : Mirrors C n (st.write off v) (s.set ⟨some off, warm⟩ x v) := h.set warm v
  have howner : s.fieldOwner x = none := by
    rw [Option.eq_none_iff_forall_ne_some]
    intro i hi
    obtain ⟨hinst, hsome⟩ := Runtime.currentField_eq_some hi
    have hfield := (h.field x).trans hx
    rw [Runtime.currentField, hinst, Option.bind_some, hsome] at hfield
    cases hfield
  simp only [Runtime.storeAssign, howner, Option.isNone_some, Bool.false_eq_true, false_and, if_false]
  split
  · next hp => exact hset.poolStore hp.2.2 v
  · exact .inr hset

end Stores

section Statements

variable {C : Ctx} {n : ℕ} {st : State} {env : Env} {s t : Runtime} {v : Value}

theorem Mirrors.declareVar (hn : n < errStackCap) (h : Mirrors C n st s) {x : Ident} (ty : TypeName) {off : ℕ}
    (warm : Bool) (v : Value) :
    Follows n (s.declareVar ty ⟨some off, warm⟩ x v s.errStack.length) (st.declare ty off v)
      fun st' => Mirrors C n st' (s.declareVar ty ⟨some off, warm⟩ x v s.errStack.length) := by
  simp only [Runtime.declareVar, Nat.lt_irrefl, if_false, State.declare]
  split
  · exact .ok (h.set warm v)
  · exact .inl (lost_raise hn h.errors _)

theorem Mirrors.assignVar (hn : n < errStackCap) (h : Mirrors C n st s) (x : Ident) {off : ℕ} (hoff : off < firstTemp)
    (warm : Bool) (v : Value) :
    Follows n (s.assignVar x ⟨some off, warm⟩ v s.errStack.length) (st.assign C x ⟨some off, warm⟩ off v)
      fun st' => Mirrors C n st' (s.assignVar x ⟨some off, warm⟩ v s.errStack.length) := by
  rw [State.assign]
  cases hfield : C.field x with
  | true => exact .inr (.inl rfl)
  | false =>
    have hlook := h.lookup x hoff warm
    rw [if_neg (by simp), Runtime.assignVar, if_pos rfl]
    split at hlook
    · next cur hread =>
      rw [hlook, hread, Except.ok_bind]
      have hne : cur.type ≠ .nil := by
        intro hnil
        rw [State.read] at hread
        split at hread
        · exact nomatch hread
        split at hread
        · next hfull =>
          obtain rfl := Except.ok.inj hread
          exact absurd ((st.slots off).type_eq_nil.mp hnil) (by simpa using hfull.2)
        · exact nomatch hread
      by_cases hty : cur.type = v.type
      · simp only [hty, ne_eq, not_true_eq_false, and_false, if_false, if_true]
        rcases h.storeAssign hfield warm v with hlost | hstored
        · exact .inl hlost
        · exact .ok hstored
      · simp only [hne, hty, ne_eq, not_false_eq_true, and_self, if_true]
        exact .inl (lost_raise hn h.errors _)
    · rw [hlook]
      exact .inl ((lost_raise hn h.errors _).onward (.storeAssign _ x _ v))
    · next hparts =>
      rw [hparts]
      exact .inr (.inl rfl)

/-- A run of a statement or a block that ends in `t`: an error is reported, the tiers part, or it ends as the loop
says. -/
def Walked (C : Ctx) (n : ℕ) (i : Proc) (st : State) (t : Runtime) : Prop :=
  Lost n t ∨ Exec C i st none ∨ ∃ st', Exec C i st (some st') ∧ Mirrors C n st' t

def Walks (C : Ctx) (n : ℕ) (env : Env) (i : Proc) : Prop :=
  ∀ (st : State) (s t : Runtime) (v : Value), Mirrors C n st s → (interp env).Calls i s v t → Walked C n i st t

/-- The run of a part is all that is left of the whole. -/
theorem Walked.imp {i i' : Proc} {st' : State} (h : Walked C n i st t) (hi : ∀ r, Exec C i st r → Exec C i' st' r) :
    Walked C n i' st' t := by
  rcases h with hlost | hparts | ⟨st'', hexec, ht⟩
  · exact .inl hlost
  · exact .inr (.inl (hi _ hparts))
  · exact .inr (.inr ⟨st'', hi _ hexec, ht⟩)

theorem walked_effect {p : Stmt} {r : Except Fault State} (hr : effect C st p = some r)
    (h : Follows n t r fun st' => Mirrors C n st' t) : Walked C n (.stmt p) st t := by
  rcases h with hlost | rfl | ⟨st', rfl, ht⟩
  · exact .inl hlost
  · exact .inr (.inl (.effectParts hr))
  · exact .inr (.inr ⟨st', .effect hr, ht⟩)

theorem walks_block {body : List Stmt} (honward : ∀ p ∈ body, ∀ {s v t}, (interp env).Calls (.stmt p) s v t → Onward s t)
    (hbody : ∀ p ∈ body, Walks C n env (.stmt p)) : Walks C n env (.block body) := by
  intro st s t v h hrun
  rw [calls_ok h.ok] at hrun
  change (interp env).Runs (runBlock body) s v t at hrun
  induction body generalizing st s with
  | nil =>
    obtain ⟨-, rfl⟩ := runs_runBlock_nil.mp hrun
    exact .inr (.inr ⟨st, .nil, h⟩)
  | cons p rest ih =>
    obtain ⟨x, u, hp, hrest⟩ := runs_runBlock_cons.mp hrun
    have honward' : ∀ q ∈ rest, ∀ {s v t}, (interp env).Calls (.stmt q) s v t → Onward s t :=
      fun q hq => honward q (List.mem_cons_of_mem p hq)
    rcases hbody p List.mem_cons_self st s u x h hp with hlost | hparts | ⟨st', hexec, hu⟩
    · refine .inl (hlost.onward ?_)
      split at hrest
      · exact hrest.2 ▸ .refl u
      · exact onward_runBlock honward' hrest
    · exact .inr (.inl (.parts hparts))
    · rw [hu.ok, hu.noReturn, if_neg (by simp)] at hrest
      exact (ih honward' (fun q hq => hbody q (List.mem_cons_of_mem p hq)) st' u hu hrest).imp fun _ => .cons hexec

theorem walks_if (hn : n < errStackCap) (hC : C.Evaluates env) {cond : Expr} {thn : List Stmt}
    {els : Option (List Stmt)} (hcond : InExpr cond) (hthn : Walks C n env (.block thn))
    (hels : ∀ b ∈ els, Walks C n env (.block b))
    (honward : ∀ b, b = thn ∨ b ∈ els → ∀ {s v t}, (interp env).Calls (.block b) s v t → Onward s t) :
    Walks C n env (.stmt (.ifStmt cond thn els)) := by
  intro st s t v h hrun
  obtain ⟨x, u, hx, hrest⟩ := runs_execIf.mp ((calls_ok h.ok).mp hrun)
  rcases h.test hn hC hcond hx with hlost | hparts | ⟨b, htest, rfl, rfl⟩
  · refine .inl (hlost.onward ?_)
    split at hrest
    · exact honward thn (.inl rfl) hrest
    · cases els with
      | none => exact hrest.2 ▸ .refl u
      | some els => exact honward els (.inr rfl) hrest
  · exact .inr (.inl (.ifParts hparts))
  · cases htr : x.truthy with
    | true =>
      rw [htr] at htest hrest
      exact (hthn st _ _ v h hrest).imp fun _ => .ifThen htest
    | false =>
      rw [htr] at htest hrest
      cases els with
      | none =>
        obtain ⟨-, rfl⟩ := hrest
        exact .inr (.inr ⟨st, .ifNone htest, h⟩)
      | some els =>
        exact (hels els rfl st _ _ v h hrest).imp fun _ => .ifElse htest

/-- A round of a loop: an error is reported, the tiers part, the loop is done, or the body has run as it means. -/
theorem walked_round (hn : n < errStackCap) (hC : C.Evaluates env) {cond : Expr} {body : List Stmt}
    (hcond : InExpr cond) (honward : ∀ {s v t}, (interp env).Calls (.block body) s v t → Onward s t)
    (hbody : Walks C n env (.block body)) (h : Mirrors C n st s) {r : LoopState ⊕ Value}
    (hr : (interp env).Runs (whileRound cond body none) s r t) :
    Lost n t ∨ Exec C (.stmt (.whileStmt cond body)) st none ∨
      (test C st cond = .ok false ∧ r = .inr .nil ∧ Mirrors C n st t) ∨
      ∃ st', test C st cond = .ok true ∧ Exec C (.block body) st (some st') ∧
        r = .inl (.while cond body none) ∧ Mirrors C n st' t := by
  obtain ⟨x, u, hx, hrest⟩ := runs_whileRound.mp hr
  rcases h.test hn hC hcond hx with hlost | hparts | ⟨b, htest, rfl, rfl⟩
  · refine .inl (hlost.onward ?_)
    split at hrest
    · exact hrest.2 ▸ .refl u
    · exact honward hrest.choose_spec.1
  · exact .inr (.inl (.whileParts hparts))
  simp only [h.ok, h.noReturn, Bool.false_or] at hrest
  cases htr : x.truthy with
  | false =>
    rw [htr] at htest hrest
    exact .inr (.inr (.inl ⟨htest, hrest.1, hrest.2 ▸ h⟩))
  | true =>
    rw [htr] at htest hrest
    obtain ⟨y, hy, hr⟩ := hrest
    rcases hbody st _ _ y h hy with hlost | hparts | ⟨st', hexec, ht⟩
    · exact .inl hlost
    · exact .inr (.inl (.roundParts htest hparts))
    · rw [ht.ok, ht.noReturn] at hr
      exact .inr (.inr (.inr ⟨st', htest, hexec, hr, ht⟩))

theorem walks_while (hn : n < errStackCap) (hC : C.Evaluates env) (hcompile : env.compileLoops = false)
    (hlimit : env.whileLimit = none) {cond : Expr} {body : List Stmt} (hcond : InExpr cond)
    (honward : ∀ {s v t}, (interp env).Calls (.block body) s v t → Onward s t)
    (hbody : Walks C n env (.block body)) : Walks C n env (.stmt (.whileStmt cond body)) := by
  intro st s t v h hrun
  rw [calls_ok h.ok] at hrun
  have hiter := (runs_execWhile hcompile h.ok).mp hrun
  rw [hlimit] at hiter
  clear hrun
  -- what one round has lost is lost at the end, so the rounds after it need not be followed
  let P (s t : Runtime) : Prop :=
    (Lost n s → Lost n t) ∧ ∀ st, Mirrors C n st s → Walked C n (.stmt (.whileStmt cond body)) st t
  suffices hP : P s t from hP.2 st h
  refine while_induct (P := P) ?_ ?_ ?_ hiter
  · intro s hs
    exact ⟨id, fun st h => .inl (.inl hs)⟩
  · intro s r t hr
    refine ⟨fun hs => hs.onward (onward_whileRound hcond honward hr), fun st h => ?_⟩
    rcases walked_round hn hC hcond honward hbody h hr with hlost | hparts | ⟨htest, -, ht⟩ | ⟨st', -, -, hr, -⟩
    · exact .inl hlost
    · exact .inr (.inl hparts)
    · exact .inr (.inr ⟨st, .whileDone htest, ht⟩)
    · cases hr
  · intro s u t hr ih
    refine ⟨fun hs => ih.1 (hs.onward (onward_whileRound hcond honward hr)), fun st h => ?_⟩
    rcases walked_round hn hC hcond honward hbody h hr with hlost | hparts | ⟨-, hr, -⟩ | ⟨st', htest, hexec, -, hu⟩
    · exact .inl (ih.1 hlost)
    · exact .inr (.inl hparts)
    · cases hr
    · exact (ih.2 st' hu).imp fun _ => .whileMore htest hexec

/-- **The evaluator runs a statement as the loop means it**, if it interprets every loop and gives it no limit. -/
theorem walks_stmt (hn : n < errStackCap) (hC : C.Evaluates env) (hcompile : env.compileLoops = false)
    (hlimit : env.whileLimit = none) {p : Stmt} (hp : InStmt p) : Walks C n env (.stmt p) := by
  have honward {body : List Stmt} (hbody : InStmts body) {s t : Runtime} {v : Value}
      (h : (interp env).Calls (.block body) s v t) : Onward s t :=
    onward_calls h (onward_runBlock fun q hq => onward_stmt hcompile hlimit (inStmts_iff.mp hbody q hq))
  have hblock {body : List Stmt} (hbody : InStmts body) (h : ∀ q ∈ body, InStmt q → Walks C n env (.stmt q)) :
      Walks C n env (.block body) :=
    walks_block (fun q hq => onward_stmt hcompile hlimit (inStmts_iff.mp hbody q hq))
      fun q hq => h q hq (inStmts_iff.mp hbody q hq)
  induction p with
  | varDecl ty x init persistent ref =>
    intro st s t v h hrun
    obtain ⟨⟨off, hoff, href⟩, hinit⟩ := hp
    obtain ⟨_, warm⟩ := ref
    subst href
    refine walked_effect rfl ?_
    split
    · exact .inr (.inl rfl)
    next hplain =>
    have hplain : ¬(persistent = true ∧ s.mode = .project) := fun hp =>
      hplain (Bool.and_eq_true_iff.mpr ⟨hp.1, h.project hp.2⟩)
    obtain ⟨w, u, hw, hrest⟩ := (runs_execVarDecl hplain).mp ((calls_ok h.ok).mp hrun)
    refine (h.expr hn hC hinit hw).bind h.ok hrest (fun h => h.2 ▸ .declareVar u ty _ x w _) ?_
    rintro rfl ⟨-, rfl⟩
    exact h.declareVar hn ty warm w
  | assign x value ref =>
    intro st s t v h hrun
    obtain ⟨⟨off, hoff, href⟩, hvalue⟩ := hp
    obtain ⟨_, warm⟩ := ref
    subst href
    obtain ⟨w, u, hw, hrest⟩ := runs_execAssign.mp ((calls_ok h.ok).mp hrun)
    refine walked_effect rfl ((h.expr hn hC hvalue hw).bind h.ok hrest (fun h => h.2 ▸ .assignVar u x _ w _) ?_)
    rintro rfl ⟨-, rfl⟩
    exact h.assignVar hn x hoff warm w
  | ifStmt cond thn els ihthn ihels =>
    obtain ⟨hcond, hthn, hels⟩ := inStmt_if.mp hp
    refine walks_if hn hC hcond (hblock hthn ihthn) (fun b hb => hblock (hels b hb) (ihels b hb)) ?_
    rintro b (rfl | hb)
    · exact honward hthn
    · exact honward (hels b hb)
  | whileStmt cond body ih => exact walks_while hn hC hcompile hlimit hp.1 (honward hp.2) (hblock hp.2 ih)
  | forStmt | arrDecl | arrAssign | funcDecl | returnStmt | blockDecl | typeofInst | memberAssign | danger | free
  | importStd | exprStmt => exact hp.elim

end Statements

end Loop

end Fluxa
