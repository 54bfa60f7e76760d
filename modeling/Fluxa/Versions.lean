import Fluxa.Base.Steps
import Fluxa.Reload

/-! The declaration of a persistent variable over a history of versions, each applied to the pool the one
before it left: which value the variable gets, and which baseline its entry keeps for the next version. -/

namespace Fluxa

open Machine Fluxa.Runtime Value

section Initialisers

/-- The value of a literal or of an expression of literals, where the evaluation makes no error. -/
def literalValue (env : Env) : Expr → Option Value
  | .intLit i => some (.int i)
  | .floatLit d => some (.float d)
  | .boolLit b => some (.bool b)
  | .stringLit s => some (.str s)
  | .binary op l r => do
      let a ← literalValue env l
      let b ← literalValue env r
      match env.evalOp op a b with
      | .value v => some v
      | _ => none
  | .logic op l r => do
      let a ← literalValue env l
      if op.shortCircuits a.truthyLogic then some (.bool a.truthyLogic)
      else do
        let b ← literalValue env r
        some (.bool b.truthyLogic)
  | _ => none

variable {env : Env} {s : Runtime} {v : Value} {e : Expr}

theorem calls_literal (hs : s.hadError = false) (h : literalValue env e = some v) :
    (interp env).Calls (.expr e) s v s := by
  rw [calls_ok hs]
  induction e generalizing v with
  | intLit | floatLit | boolLit | stringLit =>
    cases h
    exact (runs_pure _ _ _ _).mpr ⟨rfl, rfl⟩
  | binary op l r ihl ihr =>
    simp only [literalValue, Option.bind_eq_bind, Option.bind_eq_some_iff] at h
    obtain ⟨a, ha, b, hb, h⟩ := h
    refine runs_evalBinary.mpr ⟨a, s, (calls_ok hs).mpr (ihl ha), ?_⟩
    rw [Continues, hs, if_neg (by simp)]
    refine ⟨b, s, (calls_ok hs).mpr (ihr hb), ?_⟩
    rw [Continues, hs, if_neg (by simp)]
    cases hop : env.evalOp op a b with
    | value z =>
      rw [hop] at h
      cases h
      exact ⟨rfl, rfl⟩
    | error e => simp [hop] at h
    | undefined => simp [hop] at h
  | logic op l r ihl ihr =>
    simp only [literalValue, Option.bind_eq_bind, Option.bind_eq_some_iff] at h
    obtain ⟨a, ha, h⟩ := h
    refine runs_evalLogic.mpr ⟨a, s, (calls_ok hs).mpr (ihl ha), ?_⟩
    rw [Continues, hs, if_neg (by simp)]
    split at h
    · next hshort =>
      cases h
      rw [if_pos hshort]
      exact ⟨rfl, rfl⟩
    · next hshort =>
      rw [if_neg hshort]
      obtain ⟨b, hb, h⟩ := Option.bind_eq_some_iff.mp h
      cases h
      refine ⟨b, s, (calls_ok hs).mpr (ihr hb), ?_⟩
      rw [Continues, hs, if_neg (by simp)]
      exact ⟨rfl, rfl⟩
  | _ => cases h

end Initialisers

section Restore

namespace Runtime

variable {rt : Runtime} {x : Ident} {ref : Ref} {e : PrstEntry} {v : Value}

theorem poolFind_restorePrst_kept (he : rt.poolFind x = some e) {src : Option Value}
    (h : ∀ v ∈ src, initChanged v e.initValue = false) (hscalar : rt.cloneValue e.value.arrRef = (e.value, rt)) :
    (rt.restorePrst ref x e src).poolFind x = some { e with stackOffset := ref.off } := by
  rw [restorePrst_kept _ _ _ h, poolFind_globalSet, poolFind_congr (prstPool_set _ _ _ _), poolFind_poolSetOffset,
    if_pos rfl, poolFind_poolSet _ he, hscalar, Option.map_some]
  split <;> rfl

/-- An edited initialiser is the new baseline in any case, and the new value if it has the entry's type. -/
theorem poolFind_restorePrst_edited (he : rt.poolFind x = some e) (h : initChanged v e.initValue = true) :
    (rt.restorePrst ref x e (some v)).poolFind x = some { e with
      value := if e.declaredType = v.type then (rt.cloneValue v).1 else e.value
      initValue := v
      stackOffset := ref.off } := by
  rw [restorePrst_edited _ _ _ h, poolFind_globalSet, poolFind_congr (prstPool_set _ _ _ _),
    poolFind_poolUpdate (by intro e; rfl), if_pos rfl, poolFind_poolSetOffset, if_pos rfl, poolFind_poolSet _ he]
  simp only [Option.map_some]
  split <;> rfl

theorem AtTop.lookup_stored (h : rt.AtTop) (ref : Ref) (x : Ident) (hv : v ≠ .nil) :
    ((rt.set ref x v).globalSet x v).lookup ref x = some v := by
  have hset := h.set ref x v
  have hlast : ((rt.set ref x v).globalSet x v).AtTop := ⟨hset.depth, hset.running⟩
  rw [hlast.lookup]
  exact (hset.lookup ref x).symm.trans (h.lookup_set ref x hv)

theorem AtTop.poolUpdate (h : rt.AtTop) (x : Ident) (f : PrstEntry → PrstEntry) : (rt.poolUpdate x f).AtTop :=
  ⟨h.depth, h.running⟩

theorem AtTop.lookup_restorePrst_kept (htop : rt.AtTop) {src : Option Value}
    (h : ∀ v ∈ src, initChanged v e.initValue = false) (hv : e.value.arrRef ≠ .nil) :
    (rt.restorePrst ref x e src).lookup ref x = some e.value.arrRef := by
  rw [restorePrst_kept _ _ _ h]
  exact ((htop.poolSet x _).poolUpdate x _).lookup_stored ref x hv

theorem AtTop.lookup_restorePrst_edited (htop : rt.AtTop) (h : initChanged v e.initValue = true) (hv : v ≠ .nil) :
    (rt.restorePrst ref x e (some v)).lookup ref x = some v := by
  rw [restorePrst_edited _ _ _ h]
  exact (((htop.poolSet x v).poolUpdate x _).poolUpdate x _).lookup_stored ref x hv

end Runtime

end Restore

section Entries

variable {env : Env} {s t : Runtime} {x : Ident} {n : ℕ}

theorem stepsKeep_entry (env : Env) (x : Ident) :
    (interp env).StepsKeep (fun u _ => !u.declares x) (KeepsEntry x) where
  refl s := .refl x s
  trans := .trans
  apply u s h := Update.keepsEntry_apply ((Bool.not_eq_true' _).mp h)
  note s := .refl x s
  exhaust s := .refl x s
  bracket {b _ _} h := by
    cases b with
    | _ => exact h
  inside {b _ _} h := by
    cases b with
    | _ => exact h

theorem stepsKeep_quiet (env : Env) (x : Ident) :
    (interp env).StepsKeep (Update.quiet x) (fun s t => t.poolFind x = s.poolFind x) where
  refl _ := rfl
  trans h h' := h'.trans h
  apply u s h := Update.poolFind_apply_of_quiet h
  note _ := rfl
  exhaust _ := rfl
  bracket {b _ _} h := by
    cases b with
    | _ => exact h
  inside {b _ _} h := by
    cases b with
    | _ => exact h

/-- Calls are left again, so code that is executed at the top level ends there. -/
theorem Runtime.AtTop.of_runs {α : Type} {p : RtProg false α} {post : α → Prop} {a : α} (hs : s.AtTop)
    (hp : p.Follows env (originView Set.univ) post) (h : (interp env).Runs p s a t) : t.AtTop where
  depth := (keepsCalm_of_runs h).2.2.1.trans hs.depth
  running := ((honours_origin env.in_univ).of_runs hp s.in_univ h).1.running.trans hs.running

theorem atTop_of_runs {program : List Stmt} (h : (interp env).Runs (runProgram program) s () t) (hs : s.AtTop) :
    t.AtTop := hs.of_runs (follows_runProgram fun _ _ => trivial) h

end Entries

section History

/-- A version of a program with a declaration of the persistent variable among its statements. -/
structure Version where
  pre : List Stmt
  init : Expr
  ref : Ref
  post : List Stmt

namespace Version

variable (env : Env) (n : ℕ) (ty : TypeName) (x : Ident) (v : Version) (start : Runtime)

def declaration : Stmt := .varDecl ty x v.init true v.ref

def program : List Stmt := v.pre ++ v.declaration ty x :: v.post

def arrival : Runtime := ((interp env).runs n (runProgram v.pre) start).2

def declared : Runtime := ((interp env).proc n (.stmt (v.declaration ty x)) (v.arrival env n start)).2

/-- The version comes to its declaration and executes it, and it executes no other declaration of `x`. -/
structure Executes : Prop where
  arrives : ((interp env).runs n (runProgram v.pre) start).1 = some ()
  noError : (v.arrival env n start).hadError = false
  completes : ((interp env).proc n (.stmt (v.declaration ty x)) (v.arrival env n start)).1.isSome
  replayable : initIsReplayable v.init = true
  onceBefore : (interp env).Checked (fun u _ => !u.declares x) n (runProgram v.pre) start
  onceAfter : (interp env).Checked (fun u _ => !u.declares x) n (runProgram v.post) (v.declared env n ty x start)

variable {env n ty x v start}

theorem Executes.runs_pre (h : v.Executes env n ty x start) :
    (interp env).Runs (runProgram v.pre) start () (v.arrival env n start) := ⟨n, Prod.ext h.arrives rfl⟩

theorem Executes.calls (h : v.Executes env n ty x start) : ∃ r, (interp env).Calls (.stmt (v.declaration ty x))
    (v.arrival env n start) r (v.declared env n ty x start) := by
  obtain ⟨r, hr⟩ := Option.isSome_iff_exists.mp h.completes
  exact ⟨r, n, Prod.ext hr rfl⟩

end Version

section Runs

variable {env : Env} {n : ℕ}

theorem runs_runProgram_cons (st : Stmt) (rest : List Stmt) (s : Runtime) :
    (interp env).runs n (runProgram (st :: rest)) s = match (interp env).proc n (.stmt st) s with
      | (some _, u) => if u.hadError then (some (), u) else (interp env).runs n (runProgram rest) u
      | (none, u) => (none, u) := by
  simp only [runProgram, runs, Prog.run_bind, Cutoff.bind_apply, Prog.invoke, Prog.run]
  rcases (interp env).proc n (.stmt st) s with ⟨_ | r, u⟩
  · rfl
  · change Prog.run _ _ _ (if u.hadError then pure () else runProgram rest) u = _
    dsimp only
    split <;> rfl

theorem runs_runProgram_append {pre rest : List Stmt} {s t : Runtime}
    (h : (interp env).runs n (runProgram pre) s = (some (), t)) (ht : t.hadError = false) :
    (interp env).runs n (runProgram (pre ++ rest)) s = (interp env).runs n (runProgram rest) t := by
  induction pre generalizing s with
  | nil =>
    cases h
    rfl
  | cons st pre ih =>
    rw [runs_runProgram_cons] at h
    rw [List.cons_append, runs_runProgram_cons]
    rcases hst : (interp env).proc n (.stmt st) s with ⟨_ | r, u⟩ <;> rw [hst] at h
    · cases h
    · dsimp only at h ⊢
      split at h
      · next hu =>
        cases h
        rw [hu] at ht
        cases ht
      · next hu =>
        rw [if_neg hu]
        exact ih h

theorem keepsEntry_append {pre post : List Stmt} {st : Stmt} {start s t : Runtime} {r : Value} {x : Ident}
    (hpre : (interp env).runs n (runProgram pre) start = (some (), s)) (hs : s.hadError = false)
    (hst : (interp env).proc n (.stmt st) s = (some r, t))
    (hpost : (interp env).Checked (fun u _ => !u.declares x) n (runProgram post) t) :
    KeepsEntry x t ((interp env).runs n (runProgram (pre ++ st :: post)) start).2 := by
  rw [runs_runProgram_append hpre hs, runs_runProgram_cons, hst]
  dsimp only
  split
  · exact .refl x _
  · exact (stepsKeep_entry env x).runs hpost

end Runs

/-- `History w rt`: versions were applied one after another, each executing one declaration of `x` with
a literal-shaped initialiser of the type; the last one had the initialiser `w` and left the state `rt`. -/
inductive History (env : Env) (ty : TypeName) (x : Ident) : Value → Runtime → Prop
  | first {v : Version} {n : ℕ} {stdin : List String} {w : Value} :
      v.Executes env n ty x (startState (v.program ty x) stdin) →
      literalValue env v.init = some w → typeNameToVal ty = some w.type →
      History env ty x w (runtimeExec env n (v.program ty x) stdin).2
  | next {v : Version} {n : ℕ} {stdin : List String} {w w' : Value} {rt : Runtime} : History env ty x w rt →
      v.Executes env n ty x (rt.reload stdin) →
      literalValue env v.init = some w' → typeNameToVal ty = some w'.type →
      History env ty x w' (runtimeApply env n (v.program ty x) rt stdin).2

section Baselines

variable {env : Env} {ty : TypeName} {x : Ident} {v w w' : Value}

/-- The types the comparison with the baseline is exact for. -/
def ValType.comparesExactly : ValType → Bool
  | .int | .bool | .string => true
  | _ => false

theorem initChanged_iff (hw : w.type.comparesExactly = true) (h : v.type = w.type) :
    initChanged v w = true ↔ v ≠ w := by
  cases w <;> cases v <;> simp_all [type, ValType.comparesExactly, initChanged]

theorem Value.orphan_eq (h : v.type ≠ .func) : v.orphan = v := by
  cases v <;> simp_all [type, orphan]

theorem Value.clone_scalar (h : v.type.comparesExactly = true) (rt : Runtime) :
    v ≠ .nil ∧ v.arrRef = v ∧ rt.cloneValue v = (v, rt) := by
  cases v <;> simp_all [type, ValType.comparesExactly, arrRef, cloneValue]

/-- The entry of `x` has the type of `w`, and `w` is its baseline. -/
def Runtime.Baseline (rt : Runtime) (x : Ident) (w : Value) : Prop :=
  ∃ e, rt.poolFind x = some e ∧ e.initValue = w ∧ e.declaredType = w.type ∧ e.value.type = w.type

theorem Runtime.KeepsEntry.baseline {s t : Runtime} (h : KeepsEntry x s t) (hs : s.Baseline x w) :
    t.Baseline x w := by
  obtain ⟨e, he, hinit, htype, hvalue⟩ := hs
  obtain ⟨v, hv, hkept⟩ := h.2 e he
  refine ⟨_, hv, hinit, htype, ?_⟩
  rcases hkept with rfl | hkept
  · exact hvalue
  · exact hkept.trans htype

theorem Runtime.poolFind_reload (rt : Runtime) (stdin : List String) (x : Ident) : (rt.reload stdin).poolFind x =
    (rt.poolFind x).map fun e => { e with value := e.value.orphan, initValue := e.initValue.orphan } := by
  simp only [poolFind, reload, List.find?_map]
  rfl

theorem Runtime.Baseline.poolFind_reload {rt : Runtime} (h : rt.Baseline x w) (hw : w.type.comparesExactly = true)
    (stdin : List String) : (rt.reload stdin).poolFind x = rt.poolFind x := by
  obtain ⟨e, he, hinit, htype, hvalue⟩ := h
  have hscalar {u : Value} (hu : u.type = w.type) : u.orphan = u := by
    refine orphan_eq fun hfunc => ?_
    rw [← hu, hfunc] at hw
    cases hw
  rw [Runtime.poolFind_reload, he, Option.map_some, hscalar hvalue, hscalar (congrArg type hinit)]

variable {n : ℕ} {ver : Version} {start : Runtime}

theorem Version.Executes.atTop (h : ver.Executes env n ty x start) (hstart : start.AtTop) :
    (ver.arrival env n start).AtTop := atTop_of_runs h.runs_pre hstart

theorem Version.Executes.keepsEntry_pre (h : ver.Executes env n ty x start) :
    KeepsEntry x start (ver.arrival env n start) := (stepsKeep_entry env x).runs h.onceBefore

/-- **The decision.** The declaration finds an entry with a baseline of its type: it gives the variable
and the entry the new value if that differs from the baseline, and the pooled value otherwise. -/
theorem Version.Executes.declared_next (h : ver.Executes env n ty x start) (hstart : start.AtTop)
    (hmode : start.mode = .project) (hw : w.type.comparesExactly = true) {e : PrstEntry}
    (he : (ver.arrival env n start).poolFind x = some e) (hinit : e.initValue = w) (htype : e.declaredType = w.type)
    (hvalue : e.value.type = w.type) (hlit : literalValue env ver.init = some w') (hw' : w'.type = w.type) :
    ∃ c, (ver.declared env n ty x start).lookup ver.ref x = some c ∧
      (ver.declared env n ty x start).poolFind x =
        some { e with value := c, initValue := w', stackOffset := ver.ref.off } ∧
      (w' = w → c = e.value) ∧ (w' ≠ w → c = w') := by
  obtain ⟨r, hcall⟩ := h.calls
  have hmode' := (keepsCalm_of_runs h.runs_pre).1.trans hmode
  have hlive : ¬(e.value.type = .nil ∧ e.declaredType ≠ .nil) := by
    rintro ⟨hnil, -⟩
    rw [← hvalue, hnil] at hw
    cases hw
  obtain ⟨u, t, hu, hcont⟩ :=
    (runs_prstDecl_replay hmode' he hlive h.replayable).mp ((calls_ok h.noError).mp hcall)
  obtain ⟨rfl, rfl⟩ := (calls_literal h.noError hlit).unique hu
  rw [Continues, h.noError, if_neg (by simp)] at hcont
  rw [hcont.2]
  have htop := h.atTop hstart
  by_cases hchanged : initChanged w' e.initValue = true
  · have hne : w' ≠ w := (initChanged_iff hw hw').mp (hinit ▸ hchanged)
    obtain ⟨hnil, -, hclone⟩ := clone_scalar (hw' ▸ hw) (ver.arrival env n start)
    refine ⟨w', htop.lookup_restorePrst_edited hchanged hnil, ?_, fun heq => absurd heq hne, fun _ => rfl⟩
    rw [poolFind_restorePrst_edited he hchanged, if_pos (htype.trans hw'.symm), hclone]
  · have heq : w' = w := not_not.mp fun hne => hchanged (hinit ▸ (initChanged_iff hw hw').mpr hne)
    have hkept : ∀ v ∈ some w', initChanged v e.initValue = false := by simpa using hchanged
    obtain ⟨hnil, href, hclone⟩ := clone_scalar (hvalue ▸ hw) (ver.arrival env n start)
    refine ⟨e.value, ?_, ?_, fun _ => rfl, fun hne => absurd heq hne⟩
    · rw [← href] at hnil
      rw [htop.lookup_restorePrst_kept hkept hnil, href]
    · rw [poolFind_restorePrst_kept he hkept (by rw [href, hclone]), heq, ← hinit]

theorem Version.Executes.declared_first (h : ver.Executes env n ty x start) (hmode : start.mode = .project)
    (hnone : start.poolFind x = none) (hw : w.type.comparesExactly = true)
    (hlit : literalValue env ver.init = some w) (hty : typeNameToVal ty = some w.type) :
    (ver.declared env n ty x start).Baseline x w := by
  obtain ⟨r, hcall⟩ := h.calls
  have hmode' := (keepsCalm_of_runs h.runs_pre).1.trans hmode
  have hnone' := h.keepsEntry_pre.1 hnone
  obtain ⟨u, t, hu, hcont⟩ := (runs_prstDecl_new hmode' hnone').mp ((calls_ok h.noError).mp hcall)
  obtain ⟨rfl, rfl⟩ := (calls_literal h.noError hlit).unique hu
  rw [Continues, h.noError, if_neg (by simp)] at hcont
  have htype : typeOk ty w = true := by simp [typeOk, hty]
  obtain ⟨-, -, hclone⟩ := clone_scalar hw (ver.arrival env n start)
  refine ⟨⟨x, w.type, w, w, ver.ref.off⟩, ?_, rfl, rfl, rfl⟩
  rw [hcont.2, declarePrst_new hnone' htype, poolFind_globalSet, poolFind_poolSetOffset,
    if_pos rfl, poolFind_congr (prstPool_set _ _ _ _), poolFind_poolSet_none _ hnone',
    hclone, hclone]
  rfl

/-- Nothing behind the declaration changes more than the value of the entry. -/
theorem Version.Executes.keepsEntry_post (h : ver.Executes env n ty x start) :
    KeepsEntry x (ver.declared env n ty x start)
      ((interp env).runs n (runProgram (ver.program ty x)) start).2 := by
  obtain ⟨r, hr⟩ := Option.isSome_iff_exists.mp h.completes
  exact keepsEntry_append (Prod.ext h.arrives rfl) h.noError (Prod.ext hr rfl) h.onceAfter

theorem resolverHasPrst_append (pre : List Stmt) {st : Stmt} (hst : hasPrstNode st = true) (post : List Stmt) :
    resolverHasPrst (pre ++ st :: post) = true := by
  unfold resolverHasPrst
  induction pre with
  | nil => simp [hasPrstNodes, hst]
  | cons st pre ih => rw [List.cons_append, hasPrstNodes, ih, Bool.or_true]

theorem resolverHasPrst_program (ver : Version) : resolverHasPrst (ver.program ty x) = true :=
  resolverHasPrst_append _ rfl _

theorem History.type {rt : Runtime} (h : History env ty x w rt) : typeNameToVal ty = some w.type := by
  cases h with
  | first _ _ hty => exact hty
  | next _ _ _ hty => exact hty

theorem comparesExactly_of_type (hty : ty ∈ [TypeName.int, .bool, .str]) (h : typeNameToVal ty = some w.type) :
    w.type.comparesExactly = true := by
  simp only [List.mem_cons, List.not_mem_nil, or_false] at hty
  rcases hty with rfl | rfl | rfl <;> cases h' : w.type <;> simp_all [typeNameToVal, ValType.comparesExactly]

/-- The invariant of a history: the baseline is the last version's initialiser. -/
theorem History.baseline {rt : Runtime} (h : History env ty x w rt) (hty : ty ∈ [TypeName.int, .bool, .str]) :
    rt.Baseline x w := by
  induction h with
  | @first v n stdin w hv hlit htype =>
    have hmode : (startState (v.program ty x) stdin).mode = .project := by
      simp [startState, resolverHasPrst_program, start]
    exact hv.keepsEntry_post.baseline
      (hv.declared_first hmode rfl (comparesExactly_of_type hty htype) hlit htype)
  | @next v n stdin w w' rt hist hv hlit htype ih =>
    have hw := comparesExactly_of_type hty hist.type
    have hw' : w'.type = w.type := Option.some.inj (htype.symm.trans hist.type)
    have hstart : (rt.reload stdin).Baseline x w := by
      obtain ⟨e, he, hrest⟩ := ih
      exact ⟨e, (Baseline.poolFind_reload ⟨e, he, hrest⟩ hw stdin).trans he, hrest⟩
    obtain ⟨e, he, hinit, hdeclared, hvalue⟩ := hv.keepsEntry_pre.baseline hstart
    obtain ⟨c, -, hentry, hkept, hnew⟩ :=
      hv.declared_next ⟨rfl, rfl⟩ rfl hw he hinit hdeclared hvalue hlit hw'
    refine hv.keepsEntry_post.baseline ⟨_, hentry, rfl, hdeclared.trans hw'.symm, ?_⟩
    by_cases hww : w' = w
    · rw [hkept hww, hvalue, hw']
    · rw [hnew hww]

/-- **A reload decides by the baseline.** The version before had the initialiser `w`, this one has `w'`. Right
behind the declaration the variable and its entry hold `w'` if it is another value, and what the pool held at
the end of the version before if it is the same, provided that no step before the declaration changes the
entry. -/
theorem reload_decision {rt : Runtime} (hist : History env ty x w rt) (hty : ty ∈ [TypeName.int, .bool, .str])
    {stdin : List String} (hv : ver.Executes env n ty x (rt.reload stdin))
    (hlit : literalValue env ver.init = some w') (htype : typeNameToVal ty = some w'.type)
    (hquiet : w' ≠ w ∨ (interp env).Checked (Update.quiet x) n (runProgram ver.pre) (rt.reload stdin)) :
    ∃ old new, rt.poolFind x = some old ∧ (ver.declared env n ty x (rt.reload stdin)).poolFind x = some new ∧
      (ver.declared env n ty x (rt.reload stdin)).lookup ver.ref x = some new.value ∧
      (w' ≠ w → new.value = w') ∧ (w' = w → new.value = old.value) := by
  have hw := comparesExactly_of_type hty hist.type
  have hw' : w'.type = w.type := Option.some.inj (htype.symm.trans hist.type)
  have hbase := hist.baseline hty
  have hreload := hbase.poolFind_reload hw stdin
  obtain ⟨old, hold, hrest⟩ := hbase
  obtain ⟨e, he, hinit, hdeclared, hvalue⟩ :=
    hv.keepsEntry_pre.baseline ⟨old, hreload.trans hold, hrest⟩
  obtain ⟨c, hlookup, hentry, hkept, hnew⟩ :=
    hv.declared_next ⟨rfl, rfl⟩ rfl hw he hinit hdeclared hvalue hlit hw'
  refine ⟨old, _, hold, hentry, hlookup, hnew, fun heq => (hkept heq).trans ?_⟩
  have hsame : (ver.arrival env n (rt.reload stdin)).poolFind x = some old :=
    ((stepsKeep_quiet env x).runs (hquiet.resolve_left (not_not.mpr heq))).trans (hreload.trans hold)
  rw [Option.some.inj (he.symm.trans hsame)]

/-- `prst int x = 5` and then `x = 7`. -/
def sevenVersion : Version := ⟨[], .intLit 5, ⟨some 0, false⟩, [.assign "x" (.intLit 7) ⟨some 0, false⟩]⟩

theorem sevenVersion_history :
    History .plain .int "x" (.int 5) (runtimeExec .plain 5 (sevenVersion.program .int "x") []).2 :=
  .first ⟨rfl, rfl, by decide +kernel, rfl, by decide +kernel, by decide +kernel⟩ rfl rfl

/-- Applied again, the version does not reset the variable. -/
theorem sevenVersion_keeps_value :
    let rt := (runtimeExec .plain 5 (sevenVersion.program .int "x") []).2
    let s := sevenVersion.declared .plain 5 .int "x" (rt.reload [])
    ∃ old new, rt.poolFind "x" = some old ∧ s.poolFind "x" = some new ∧
      s.lookup sevenVersion.ref "x" = some new.value ∧ (int 5 ≠ .int 5 → new.value = .int 5) ∧
      (int 5 = .int 5 → new.value = old.value) :=
  reload_decision sevenVersion_history (by decide)
    ⟨rfl, rfl, by decide +kernel, rfl, by decide +kernel, by decide +kernel⟩ rfl rfl (.inr (by decide +kernel))

/-- `int y = 1  while y < 1 { y = y + 1 }` before `prst int x = 5`. -/
def shiftedVersion : Version :=
  ⟨[.varDecl .int "y" (.intLit 1) false ⟨some 0, false⟩,
    .whileStmt (.binary .lt (.identifier "y" ⟨some 0, false⟩) (.intLit 1))
      [.assign "y" (.binary .add (.identifier "y" ⟨some 0, false⟩) (.intLit 1)) ⟨some 0, false⟩]],
    .intLit 5, ⟨some 1, false⟩, []⟩

/-- The initialiser is the same and the pool held 7, but the slot recorded for `x` belongs to `y` now. -/
theorem shifted_slot_overwrites :
    let rt := (runtimeExec .plain 5 (sevenVersion.program .int "x") []).2
    let s := shiftedVersion.declared .plain 5 .int "x" (rt.reload [])
    ((rt.poolFind "x").bind (·.value.int?)) = some 7 ∧ ((s.lookup shiftedVersion.ref "x").bind int?) = some 1 ∧
      ((s.poolFind "x").bind (·.value.int?)) = some 1 := by
  decide +kernel

end Baselines

end History

section Collisions

variable {env : Env} {s t : Runtime} {ty : TypeName} {x : Ident} {ref : Ref} {init : Expr} {e : PrstEntry} {r v w : Value}

namespace Runtime

/-- What the variable holds where `rt_set` puts it. -/
def stored (rt : Runtime) (ref : Ref) (x : Ident) : Option Value :=
  match ref.off with
  | some off => some (rt.stack off)
  | none => (rt.currentField x).or (rt.scope.get? x)

theorem stored_set (rt : Runtime) (ref : Ref) (x : Ident) (v : Value) : (rt.set ref x v).stored ref x = some v := by
  unfold set stored
  cases ref.off with
  | some off => simp
  | none =>
    dsimp only
    split
    · next i hi => rw [currentField_setInstanceField hi, Option.some_or]
    · next hnone =>
      have hfield : ({ rt with scope := rt.scope.set x v } : Runtime).currentField x = none :=
        currentField_eq_none hnone
      rw [hfield, Option.none_or, Table.get?_set_self]

theorem stored_restorePrst_kept (rt : Runtime) (ref : Ref) (x : Ident) {src : Option Value}
    (h : ∀ v ∈ src, initChanged v e.initValue = false) :
    (rt.restorePrst ref x e src).stored ref x = some e.value.arrRef := by
  rw [restorePrst_kept _ _ _ h]
  exact stored_set _ ref x _

theorem stored_restorePrst_edited (rt : Runtime) (ref : Ref) (x : Ident) (h : initChanged v e.initValue = true) :
    (rt.restorePrst ref x e (some v)).stored ref x = some v := by
  rw [restorePrst_edited _ _ _ h]
  exact stored_set _ ref x v

end Runtime

theorem Continues.prstPool {rest : Prop} (h : Continues s v t rest) (hrest : rest → t.prstPool = s.prstPool) :
    t.prstPool = s.prstPool := by
  unfold Continues at h
  split at h
  · rw [h.2]
  · exact hrest h

/-- A literal-shaped initialiser does not touch the pool, even where it makes an error. -/
theorem prstPool_of_replayable (hinit : initIsReplayable init = true) (h : (interp env).Calls (.expr init) s v t) :
    t.prstPool = s.prstPool := by
  induction init generalizing s v t with
  | intLit | floatLit | boolLit | stringLit =>
    by_cases hs : s.hadError = true
    · rw [((calls_error hs).mp h).2]
    · rw [((runs_pure _ _ _ _).mp ((calls_ok (by simpa using hs)).mp h)).2]
  | binary op l r ihl ihr =>
    by_cases hs : s.hadError = true
    · rw [((calls_error hs).mp h).2]
    obtain ⟨hl, hr⟩ := Bool.and_eq_true_iff.mp hinit
    obtain ⟨a, u, ha, h⟩ := runs_evalBinary.mp ((calls_ok (by simpa using hs)).mp h)
    refine Eq.trans (h.prstPool ?_) (ihl hl ha)
    rintro ⟨b, u', hb, h⟩
    refine Eq.trans (h.prstPool ?_) (ihr hr hb)
    cases env.evalOp op a b with
    | value z => exact fun h => by rw [h.2]
    | error e => exact fun h => by rw [h.2, prstPool_raise]
    | undefined => exact False.elim
  | logic op l r ihl ihr =>
    by_cases hs : s.hadError = true
    · rw [((calls_error hs).mp h).2]
    obtain ⟨hl, hr⟩ := Bool.and_eq_true_iff.mp hinit
    obtain ⟨a, u, ha, h⟩ := runs_evalLogic.mp ((calls_ok (by simpa using hs)).mp h)
    refine Eq.trans (h.prstPool fun h => ?_) (ihl hl ha)
    split at h
    · rw [h.2]
    · obtain ⟨b, u', hb, h⟩ := h
      exact Eq.trans (h.prstPool fun h => by rw [h.2]) (ihr hr hb)
  | _ => cases hinit

/-- A declaration of another type is refused, and the variable keeps to its declared type. -/
structure RefusesCollision (env : Env) (ty : TypeName) (x : Ident) (ref : Ref) (s t : Runtime) : Prop where
  recorded : ∃ err : ErrEntry, err.kind = .reload ∧ t.errStack = (err :: s.errStack).take errStackCap
  kept : ∀ e, s.poolFind x = some e → ∃ e', t.poolFind x = some e' ∧ e'.value = e.value ∧
    e'.declaredType = e.declaredType ∧ e'.initValue = e.initValue
  typed : ∀ v, t.stored ref x = some v → typeOk ty v = true
  later : ∀ {stdin : List String} {pre : List Stmt} {s' u : Runtime} {ty' : TypeName} {init' : Expr} {ref' : Ref}
    {r v : Value}, (interp env).Runs (runProgram pre) (t.reload stdin) () s' → s'.hadError = false →
    (interp env).Calls (.stmt (.varDecl ty' x init' true ref')) s' r u → u.stored ref' x = some v →
    typeOk ty' v = true

theorem Value.type_arrRef (v : Value) : v.arrRef.type = v.type := by
  cases v <;> rfl

theorem Value.type_orphan (v : Value) : v.orphan.type = v.type := by
  cases v <;> rfl

/-- **No collision is refused without harm.** Either the baseline is overwritten, or the variable gets a
value of the entry's type. -/
theorem collision_not_refused (hmode : s.mode = .project) (hs : s.hadError = false) (he : s.poolFind x = some e)
    (hlive : e.value.type = e.declaredType) {T : ValType} (hty : typeNameToVal ty = some T)
    (hne : e.declaredType ≠ T) (hdecl : (interp env).Calls (.stmt (.varDecl ty x init true ref)) s r t)
    (ht : t.hadError = false) : ¬RefusesCollision env ty x ref s t := by
  intro h
  have hhead : ¬(e.value.type = .nil ∧ e.declaredType ≠ .nil) := fun h => h.2 (hlive.symm.trans h.1)
  have hwrong {v : Value} (hv : v.type = e.declaredType) : typeOk ty v ≠ true := by
    simp [typeOk, hty, hv, hne]
  have hpooled : typeOk ty e.value.arrRef ≠ true := hwrong (e.value.type_arrRef.trans hlive)
  by_cases hinit : initIsReplayable init = true
  · obtain ⟨w, u, hw, hcont⟩ := (runs_prstDecl_replay hmode he hhead hinit).mp ((calls_ok hs).mp hdecl)
    have hu : u.hadError = false := by
      by_contra hu
      rw [Continues, if_pos (by simpa using hu)] at hcont
      exact hu (hcont.2 ▸ ht)
    rw [Continues, hu, if_neg (by simp)] at hcont
    obtain ⟨-, rfl⟩ := hcont
    by_cases hchanged : initChanged w e.initValue = true
    · have heu : u.poolFind x = some e := (poolFind_congr (prstPool_of_replayable hinit hw) x).trans he
      generalize hlast : u.restorePrst ref x e (some w) = last at h ht hdecl
      have hentry : last.poolFind x = _ := hlast ▸ poolFind_restorePrst_edited heu hchanged
      -- the new baseline goes unnoticed only if it is the NaN that stood there before
      have hbase : w = e.initValue := by
        obtain ⟨e', he', -, -, hbase⟩ := h.kept e he
        rw [hentry] at he'
        rwa [← Option.some.inj he'] at hbase
      by_cases hdeclared : e.declaredType = w.type
      · exact hwrong hdeclared.symm (h.typed w (hlast ▸ u.stored_restorePrst_edited ref x hchanged))
      · rw [if_neg hdeclared] at hentry
        -- a later version does not replay its initialiser and takes the pooled value
        have hreload := (last.poolFind_reload [] x).trans (congrArg _ hentry)
        have hpre : (interp env).Runs (runProgram []) (last.reload []) () (last.reload []) :=
          (runs_pure _ _ _ _).mpr ⟨rfl, rfl⟩
        have hlater : (interp env).Calls (.stmt (.varDecl ty x (.identifier x {}) true ref)) (last.reload []) .nil
            ((last.reload []).restorePrst ref x _ none) :=
          (calls_ok rfl).mpr ((runs_prstDecl_keep rfl hreload (by simpa [type_orphan] using hhead) rfl).mpr
            ⟨rfl, rfl⟩)
        refine hwrong ?_ (h.later hpre rfl hlater (stored_restorePrst_kept _ ref x (by simp)))
        simp [type_arrRef, type_orphan, hlive]
    · exact hpooled (h.typed _ (u.stored_restorePrst_kept ref x (by simpa using hchanged)))
  · obtain ⟨-, rfl⟩ := (runs_prstDecl_keep hmode he hhead (by simpa using hinit)).mp ((calls_ok hs).mp hdecl)
    exact hpooled (h.typed _ (s.stored_restorePrst_kept ref x (by simp)))

/-- The pool holds `x` as an `int`. -/
def pooledState : Runtime :=
  { start .project [] with prstPool := [⟨"x", .int, .int 7, .int 5, some 0⟩] }

theorem calls_floatDecl : (interp .plain).Calls
    (.stmt (.varDecl .float "x" (.floatLit (.ofInt 2)) true ⟨some 0, false⟩)) pooledState .nil
    (pooledState.restorePrst ⟨some 0, false⟩ "x" ⟨"x", .int, .int 7, .int 5, some 0⟩ (some (.float (.ofInt 2)))) :=
  (calls_ok rfl).mpr ((runs_prstDecl_replay rfl rfl (by decide) rfl).mpr
    ⟨.float (.ofInt 2), _, calls_literal rfl rfl, rfl, rfl⟩)

/-- `prst float x = 2.0` is not refused there. -/
theorem float_collision_not_refused :
    ¬RefusesCollision .plain .float "x" ⟨some 0, false⟩ pooledState
      (pooledState.restorePrst ⟨some 0, false⟩ "x" ⟨"x", .int, .int 7, .int 5, some 0⟩ (some (.float (.ofInt 2)))) :=
  collision_not_refused rfl rfl rfl rfl rfl (by decide) calls_floatDecl rfl

/-- `prst float x = 2.0` is applied twice to the pool of `prst int x = 5  x = 7`. The first time `ERR_RELOAD`
is recorded and the baseline is a float; the second time there is no error, and the variable is an `int`. -/
theorem collision_harms_next_reload :
    let changed : Version := ⟨[], .floatLit (.ofInt 2), ⟨some 0, false⟩, []⟩
    let first := (runtimeExec .plain 5 (sevenVersion.program .int "x") []).2
    let second := (runtimeApply .plain 5 (changed.program .float "x") first []).2
    let third := (runtimeApply .plain 5 (changed.program .float "x") second []).2
    second.errStack.map (·.kind) = [.reload] ∧ ((second.poolFind "x").map (·.initValue.type)) = some .float ∧
      third.errStack.map (·.kind) = [] ∧ ((third.lookup changed.ref "x").bind int?) = some 7 := by
  decide +kernel

end Collisions

end Fluxa
