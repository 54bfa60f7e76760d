import Fluxa.CodeOrigin
import Fluxa.Fixed
import Fluxa.PoolEntries

/-! A reload (`runtime_apply`): the new version of a program runs in a fresh runtime that takes the pool
over. What a declaration of a persistent variable does depends on the entry it finds there. -/

namespace Fluxa

open Machine Fluxa.Runtime

/-- The tree of a version is freed when the next one is run, so that a function of it has no code any
more. Calling one that was kept in a dyn or in an instance is a use after free, which is not modelled. -/
def FuncDecl.orphan (fn : FuncDecl) : FuncDecl := { fn with body := [] }

def Value.orphan : Value → Value
  | .func fn => .func fn.orphan
  | v => v

namespace Runtime

/-- The runtime the next version starts in. With the pool come the arrays, dyns and instances its values
refer to, but the registries of Blocks are empty. -/
def reload (rt : Runtime) (stdin : List String) : Runtime :=
  { start .project stdin with
    prstPool := rt.prstPool.map fun e => { e with value := e.value.orphan, initValue := e.initValue.orphan }
    arrs := rt.arrs.map fun a => { a with data := a.data.map Value.orphan }
    dyns := rt.dyns.map fun d => d.map Value.orphan
    instances := rt.instances.map fun b => { b with
      fields := b.fields.map fun f => (f.1, f.2.orphan)
      methods := b.methods.map fun f => (f.1, f.2.orphan) }
    cloneCounter := rt.cloneCounter }

end Runtime

/-- `runtime_apply` on the pool another run left. -/
def runtimeApply (env : Env) (n : ℕ) (program : List Stmt) (rt : Runtime) (stdin : List String) :
    Option Unit × Runtime := (interp env).runs n (runProgram program) (rt.reload stdin)

section Declarations

variable {env : Env} {s t : Runtime} {v : Value} {ty : TypeName} {x : Ident} {init : Expr} {ref : Ref}

theorem runs_prstDecl_new (hmode : s.mode = .project) (hx : s.poolFind x = none) :
    (interp env).Runs (execVarDecl ty x init true ref) s v t ↔
      ∃ w u, (interp env).Calls (.expr init) s w u ∧ Continues u v t (v = .nil ∧ t = u.declarePrst ty ref x w) := by
  simp only [execVarDecl, execPrstDecl, runs_read_bind, hmode, and_self, if_true, hx, runs_evalFor]
  rfl

theorem runs_prstDecl_replay (hmode : s.mode = .project) {e : PrstEntry} (hx : s.poolFind x = some e)
    (hlive : ¬(e.value.type = .nil ∧ e.declaredType ≠ .nil)) (hinit : initIsReplayable init = true) :
    (interp env).Runs (execVarDecl ty x init true ref) s v t ↔
      ∃ w u, (interp env).Calls (.expr init) s w u ∧
        Continues u v t (v = .nil ∧ t = u.restorePrst ref x e (some w)) := by
  simp only [execVarDecl, execPrstDecl, runs_read_bind, hmode, and_self, if_true, hx, if_neg hlive, hinit,
    runs_evalFor]
  rfl

theorem runs_prstDecl_keep (hmode : s.mode = .project) {e : PrstEntry} (hx : s.poolFind x = some e)
    (hlive : ¬(e.value.type = .nil ∧ e.declaredType ≠ .nil)) (hinit : initIsReplayable init = false) :
    (interp env).Runs (execVarDecl ty x init true ref) s v t ↔ v = .nil ∧ t = s.restorePrst ref x e none := by
  simp only [execVarDecl, execPrstDecl, runs_read_bind, hmode, and_self, if_true, hx, if_neg hlive, hinit,
    Bool.false_eq_true, if_false, runs_modify_bind, runs_pure]
  rfl

theorem runs_prstArr {size : ℕ} {es : List Expr} {data : List Value} {u : Runtime}
    (helems : (interp env).Runs (evalElements ty (es.take size) []) s (some data) u) :
    (interp env).Runs (execArrDecl ty x size (.elements es) true) s v t ↔
      v = .nil ∧ t = (u.declareArr x data).persistArr x u.nextArr := by
  simp only [execArrDecl, runs_bind]
  constructor
  · rintro ⟨o, u', helems', h⟩
    obtain ⟨rfl, rfl⟩ := helems.unique helems'
    simp only [runs_read_bind, runs_modify_bind, if_true, runs_pure] at h
    exact h
  · rintro ⟨rfl, rfl⟩
    refine ⟨some data, u, helems, ?_⟩
    simp only [runs_read_bind, runs_modify_bind, if_true, runs_pure]
    exact ⟨trivial, rfl⟩

end Declarations

section TopLevel

namespace Runtime

variable {rt : Runtime} {x : Ident} {v : Value}

structure AtTop (rt : Runtime) : Prop where
  depth : rt.callDepth = 0
  running : rt.currentInstance = none

theorem AtTop.lookup (h : rt.AtTop) (ref : Ref) (x : Ident) :
    rt.lookup ref x = (ref.off.bind rt.slotValue).or (rt.scope.get? x) := by
  have hfield : rt.currentField x = none := by simp [currentField, h.running]
  simp only [Runtime.lookup, h.depth, Nat.lt_irrefl, false_and, if_false, hfield]
  cases ref.off.bind rt.slotValue <;> cases rt.scope.get? x <;> simp

theorem AtTop.set (h : rt.AtTop) (ref : Ref) (x : Ident) (v : Value) : (rt.set ref x v).AtTop := by
  unfold Runtime.set
  split
  · exact ⟨h.depth, h.running⟩
  · split <;> exact ⟨h.depth, h.running⟩

theorem AtTop.lookup_set (h : rt.AtTop) (ref : Ref) (x : Ident) (hv : v ≠ .nil) :
    (rt.set ref x v).lookup ref x = some v := by
  rw [(h.set ref x v).lookup]
  unfold Runtime.set
  cases hoff : ref.off with
  | some off =>
    have hslot : slotValue { rt with
        stack := Function.update rt.stack off v, stackSize := max rt.stackSize (off + 1) } off = some v := by
      simp [slotValue, hv]
    simp only [Option.bind_some, hslot, Option.some_or]
  | none =>
    have hfield : rt.fieldOwner x = none := by simp [fieldOwner, h.running]
    simp [hfield]

/-- The same value, or two arrays with the same elements. -/
def SameData (rt : Runtime) (v w : Value) : Prop :=
  v = w ∨ ∃ a o b o' c, v = .arr a o ∧ w = .arr b o' ∧ rt.arr? a = some c ∧ rt.arr? b = some c

theorem SameData.append {rt' : Runtime} (h : HeapGrows rt rt') {w : Value}
    (hvw : rt.SameData v w) : rt'.SameData v w := by
  rcases hvw with rfl | ⟨a, o, b, o', c, hv, hw, ha, hb⟩
  · exact .inl rfl
  · exact .inr ⟨a, o, b, o', c, hv, hw, h.arr? ha, h.arr? hb⟩

theorem sameData_cloneValue (rt : Runtime) (v : Value) : (rt.cloneValue v).2.SameData (rt.cloneValue v).1 v := by
  unfold cloneValue
  split
  · next a o =>
    split
    · next b hb =>
      split
      · exact .inl rfl
      · refine .inr ⟨rt.nextArr, true, a, o, b, rfl, rfl, ?_, ?_⟩
        · simp [arr?, allocArr, nextArr]
        · have halloc : HeapGrows rt (rt.allocArr b) := ⟨⟨[b], rfl⟩, le_rfl⟩
          exact halloc.arr? hb
    · exact .inl rfl
  · exact .inl rfl

theorem poolSet_new (hx : rt.poolFind x = none) (v : Value) : (rt.poolSet x v).2 = true ∧ ∃ e more,
    (rt.poolSet x v).1 = { rt with prstPool := rt.prstPool ++ [e], arrs := rt.arrs ++ more } := by
  obtain ⟨more, hmore⟩ := rt.cloneValue_arrs v
  rcases h₁ : rt.cloneValue v with ⟨v₁, rt₁⟩
  obtain rfl : rt₁ = { rt with arrs := rt.arrs ++ more } := by rwa [h₁] at hmore
  obtain ⟨more', hmore'⟩ := cloneValue_arrs { rt with arrs := rt.arrs ++ more } v
  rcases h₂ : cloneValue { rt with arrs := rt.arrs ++ more } v with ⟨v₂, rt₂⟩
  obtain rfl : rt₂ = { rt with arrs := rt.arrs ++ more ++ more' } := by rwa [h₂] at hmore'
  simp only [poolSet, hx, h₁, h₂]
  exact ⟨trivial, ⟨x, v.type, v₁, v₂, none⟩, more ++ more', by rw [List.append_assoc]⟩

theorem AtTop.poolSet (h : rt.AtTop) (x : Ident) (v : Value) : (rt.poolSet x v).1.AtTop := by
  obtain ⟨more, hmore⟩ := rt.cloneValue_arrs v
  have hclone : (rt.cloneValue v).2.AtTop := by
    rw [hmore]
    exact ⟨h.depth, h.running⟩
  unfold Runtime.poolSet
  split
  · split
    · exact ⟨h.depth, h.running⟩
    · exact ⟨hclone.depth, hclone.running⟩
  · obtain ⟨more', hmore'⟩ := (rt.cloneValue v).2.cloneValue_arrs v
    dsimp only
    rw [hmore']
    exact ⟨hclone.depth, hclone.running⟩

theorem declarePrst_new (hx : rt.poolFind x = none) {ty : TypeName} (htype : typeOk ty v = true) (ref : Ref) :
    rt.declarePrst ty ref x v = (((rt.poolSet x v).1.set ref x v).poolSetOffset x ref.off).globalSet x v := by
  simp only [declarePrst, htype, if_true, (poolSet_new hx v).1]

theorem sameData_poolSet_none (hx : rt.poolFind x = none) : ∃ e, (rt.poolSet x v).1.poolFind x = some e ∧
    e.declaredType = v.type ∧ (rt.poolSet x v).1.SameData e.value v ∧ (rt.poolSet x v).1.SameData e.initValue v := by
  refine ⟨_, poolFind_poolSet_none v hx, rfl, ?_⟩
  have hgrow : HeapGrows ((rt.cloneValue v).2.cloneValue v).2 (rt.poolSet x v).1 :=
    .of_eq (by simp only [poolSet, hx, shape])
  exact ⟨(sameData_cloneValue rt v).append ((keeps_cloneValue (w := ∅) _ v).heap.trans hgrow),
    (sameData_cloneValue _ v).append hgrow⟩

end Runtime

end TopLevel

section Ghosts

variable {env : Env}

variable {D : Set Ident} {rt s : Runtime} {program : List Stmt} {x : Ident}

theorem Value.in_orphan (D : Set Ident) (v : Value) : v.orphan.In D := by
  cases v with
  | func fn => exact Value.in_func.mpr (List.forall_mem_nil _)
  | _ => exact nofun

theorem Runtime.in_reload (h : ∀ e ∈ rt.prstPool, e.name ∈ D) (stdin : List String) : (rt.reload stdin).In D none where
  running := rfl
  scope := List.forall_mem_nil _
  globalTable := List.forall_mem_nil _
  stack _ := Value.in_nil
  retValue := Value.in_nil
  tailCall := nofun
  pool e he := by
    obtain ⟨e', he', rfl⟩ := List.mem_map.mp he
    exact ⟨h e' he', Value.in_orphan D _, Value.in_orphan D _⟩
  instances b hb := by
    obtain ⟨b, -, rfl⟩ := List.mem_map.mp hb
    constructor
    · intro f hf
      obtain ⟨f, -, rfl⟩ := List.mem_map.mp hf
      exact Value.in_orphan D _
    · intro f hf
      obtain ⟨f, -, rfl⟩ := List.mem_map.mp hf
      exact List.forall_mem_nil _
  blockDefs := List.forall_mem_nil _
  arrs a ha v hv := by
    obtain ⟨a, -, rfl⟩ := List.mem_map.mp ha
    obtain ⟨v, -, rfl⟩ := List.mem_map.mp hv
    exact Value.in_orphan D _
  dyns d hd v hv := by
    obtain ⟨d, -, rfl⟩ := List.mem_map.mp hd
    obtain ⟨v, -, rfl⟩ := List.mem_map.mp hv
    exact Value.in_orphan D _
  chunks := List.forall_mem_nil _

/-- The names in the pool after a run were there before, or the program declares them. -/
theorem names_of_runs (henv : env.Sealed) (n : ℕ) {g : Option ℕ}
    (hs : s.In D g) (hprogram : ∀ x ∈ prstDecls program, x ∈ D) :
    ∀ e ∈ ((interp env).runs n (runProgram program) s).2.prstPool, e.name ∈ D := by
  obtain ⟨g', ht⟩ := (honours_origin (henv.in D)).known n (follows_runProgram hprogram) hs
  exact fun e he => (ht.pool e he).1

/-- No entry is ever taken out of the pool. -/
def KeepsNames (s t : Runtime) : Prop := ∀ x, s.poolHas x = true → t.poolHas x = true

theorem closed_keepsNames (env : Env) : (interp env).Closed KeepsNames KeepsNames (fun _ => True) where
  refl _ _ := id
  trans h h' x := h' x ∘ h x
  deep _ _ := trivial
  apply u s x := Update.poolHas_apply
  note _ _ := id
  bracket {b s t} _ _ h := by
    cases b with
    | _ => exact h
  opens _ _ _ := trivial
  exhaust _ _ := id
  later h h' x := h' x ∘ h x
  inside {b s t} _ _ h := by
    cases b with
    | _ => exact h

theorem keepsNames_runs {α : Type} (n : ℕ) (p : RtProg false α) (s : Runtime) :
    KeepsNames s ((interp env).runs n p s).2 := by
  have hout := (closed_keepsNames env).runs n p s fun _ => trivial
  rcases hrun : (interp env).runs n p s with ⟨_ | _, t⟩ <;> rw [hrun] at hout <;> exact hout

theorem Runtime.poolHas_reload (rt : Runtime) (stdin : List String) (x : Ident) :
    (rt.reload stdin).poolHas x = rt.poolHas x :=
  poolHas_congr (by simp [reload]) x

/-- Every entry belongs to a variable the program declares. -/
def Runtime.NoGhost (program : List Stmt) (rt : Runtime) : Prop := ∀ e ∈ rt.prstPool, e.name ∈ prstDecls program

instance (program : List Stmt) (rt : Runtime) : Decidable (rt.NoGhost program) :=
  inferInstanceAs (Decidable (∀ e ∈ rt.prstPool, e.name ∈ prstDecls program))

theorem Runtime.noGhost_iff_poolHas : rt.NoGhost program ↔ ∀ x, rt.poolHas x = true → x ∈ prstDecls program := by
  simp [NoGhost, poolHas_iff]

theorem noGhost_runtimeApply_iff (henv : env.Sealed) (n : ℕ) (program : List Stmt) (rt : Runtime)
    (stdin : List String) : (runtimeApply env n program rt stdin).2.NoGhost program ↔ rt.NoGhost program := by
  constructor
  · rw [noGhost_iff_poolHas, noGhost_iff_poolHas]
    intro h x hx
    exact h x (keepsNames_runs n _ _ x ((rt.poolHas_reload stdin x).trans hx))
  · intro h
    have hin : (rt.reload stdin).In {y | y ∈ prstDecls program} none :=
      in_reload (fun e he => h e he) stdin
    exact names_of_runs henv n hin fun _ hx => hx

/-- The first statements of a version that do not declare `x`, and what holds behind them. -/
theorem runs_reload (henv : env.Sealed) (hx : rt.poolHas x = false) {pre : List Stmt}
    (hpre : x ∉ prstDecls pre) {stdin : List String}
    (hrun : (interp env).Runs (runProgram pre) (rt.reload stdin) () s) : ∃ D, x ∉ D ∧ s.In D none ∧
      s.mode = .project ∧ s.dryRun = false ∧ s.callDepth = 0 := by
  refine ⟨{y | y ∈ rt.prstPool.map (·.name) ++ prstDecls pre}, ?_, ?_, ?_⟩
  · rw [Set.mem_ofPred_eq, List.mem_append, not_or]
    refine ⟨fun h => ?_, hpre⟩
    simp [(rt.poolHas_iff).mpr h] at hx
  · have hin : (rt.reload stdin).In {y | y ∈ rt.prstPool.map (·.name) ++ prstDecls pre} none :=
      in_reload (fun e he => List.mem_append_left _ (List.mem_map_of_mem he)) stdin
    exact ((honours_origin (henv.in _)).of_runs (follows_runProgram (fun _ hx => List.mem_append_right _ hx)) hin hrun).1
  · obtain ⟨hmode, hdry, hdepth, -⟩ := keepsCalm_of_runs hrun
    exact ⟨hmode, hdry, hdepth⟩

theorem Runtime.In.poolFind_none {g : Option ℕ} (h : s.In D g) (hx : x ∉ D) : s.poolFind x = none := by
  cases he : s.poolFind x with
  | none => rfl
  | some e =>
    obtain ⟨rfl, hmem, -⟩ := h.poolFind he
    exact absurd hmem hx

/-- A later version that declares `x` gives it the value of its initialiser, which the pool takes over. An
array with a fill initialiser is not in the pool and needs no such statement. -/
structure StartsFresh (env : Env) (x : Ident) (rt : Runtime) : Prop where
  var : ∀ {stdin : List String} {pre : List Stmt} {s s₁ s₂ : Runtime} {ty : TypeName} {init : Expr} {ref : Ref}
    {v w : Value}, x ∉ prstDecls pre → (interp env).Runs (runProgram pre) (rt.reload stdin) () s →
    s.hadError = false → (interp env).Calls (.expr init) s v s₁ → s₁.hadError = false →
    typeOk ty v = true → (interp env).Calls (.stmt (.varDecl ty x init true ref)) s w s₂ →
    (v ≠ .nil → s₂.lookup ref x = some v) ∧ ∃ e, s₂.poolFind x = some e ∧ e.declaredType = v.type ∧
      s₂.SameData e.value v ∧ s₂.SameData e.initValue v
  arr : ∀ {stdin : List String} {pre : List Stmt} {s s₁ s₂ : Runtime} {ty : TypeName} {size : ℕ} {es : List Expr}
    {data : List Value} {w : Value}, x ∉ prstDecls pre →
    (interp env).Runs (runProgram pre) (rt.reload stdin) () s → s.hadError = false →
    (interp env).Runs (evalElements ty (es.take size) []) s (some data) s₁ →
    (interp env).Calls (.stmt (.arrDecl ty x size (.elements es) true)) s w s₂ →
    ∃ a e, s₂.scope.get? x = some (.arr a true) ∧ s₂.arrData a = data ∧ s₂.poolFind x = some e ∧
      s₂.SameData e.value (.arr a true) ∧ s₂.SameData e.initValue (.arr a true)

theorem startsFresh (henv : env.Sealed) (hx : rt.poolHas x = false) : StartsFresh env x rt where
  var := by
    intro stdin pre s s₁ s₂ ty init ref v w hpre hrun hs hinit hs₁ htype hdecl
    obtain ⟨D, hD, hin, hmode, hdry, hdepth⟩ := runs_reload henv hx hpre hrun
    obtain ⟨hin₁, -⟩ := (honours_origin (henv.in D)).calls (i := .expr init) trivial hin hinit
    have hdepth₁ : s₁.callDepth = 0 := (keepsCalm_of_runs ((runs_invoke _ _ _ _).mpr hinit)).2.2.1.trans hdepth
    have hnone := hin₁.poolFind_none hD
    obtain ⟨v', u, hinit', hcont⟩ :=
      (runs_prstDecl_new hmode (hin.poolFind_none hD)).mp ((calls_ok hs).mp hdecl)
    obtain ⟨rfl, rfl⟩ := hinit.unique hinit'
    rw [Continues, hs₁, if_neg (by simp)] at hcont
    obtain ⟨-, rfl⟩ := hcont
    obtain ⟨e, he, htype', hvalue, hinitValue⟩ := sameData_poolSet_none (v := v) hnone
    have htop : s₁.AtTop := ⟨hdepth₁, hin₁.running⟩
    have htop' := htop.poolSet x v
    rw [declarePrst_new hnone htype]
    have harrs : HeapGrows (s₁.poolSet x v).1
        ((((s₁.poolSet x v).1.set ref x v).poolSetOffset x ref.off).globalSet x v) :=
      (Keeps.of_eq (w := ∅) (frame_set _ x ref v)).heap
    refine ⟨fun hv => ?_, { e with stackOffset := ref.off }, ?_, htype', hvalue.append harrs, hinitValue.append harrs⟩
    · have hset := htop'.set ref x v
      have hlast : ((((s₁.poolSet x v).1.set ref x v).poolSetOffset x ref.off).globalSet x v).AtTop :=
        ⟨hset.depth, hset.running⟩
      rw [hlast.lookup]
      exact (hset.lookup ref x).symm.trans (htop'.lookup_set ref x hv)
    · rw [poolFind_globalSet, poolFind_poolSetOffset, if_pos rfl,
        poolFind_congr (prstPool_set _ _ _ _), he]
      rfl
  arr := by
    intro stdin pre s s₁ s₂ ty size es data w hpre hrun hs helems hdecl
    obtain ⟨D, hD, hin, hmode, hdry, hdepth⟩ := runs_reload henv hx hpre hrun
    have hin₁ : s₁.In D none :=
      ((honours_origin (henv.in D)).of_runs (follows_evalElements ty _ (List.forall_mem_nil _)) hin helems).1
    obtain ⟨hmode₁, hdry₁, -, -⟩ := keepsCalm_of_runs helems
    obtain ⟨-, rfl⟩ := (runs_prstArr helems).mp ((calls_ok hs).mp hdecl)
    -- the array is the next one; it is stored under its name and copied to the pool
    have hdeclare : s₁.declareArr x data = { s₁ with
        arrs := s₁.arrs ++ [.ofList data], scope := s₁.scope.set x (.arr s₁.nextArr true) } := by
      simp [declareArr, allocArr, nextArr, hin₁.running]
    rw [hdeclare]
    generalize hs' : ({ s₁ with arrs := _, scope := _ } : Runtime) = s'
    have hnone : s'.poolFind x = none := by
      rw [← hs']
      exact hin₁.poolFind_none hD
    have hpersist : s'.persistArr x s₁.nextArr = (s'.poolSet x (.arr s₁.nextArr true)).1 := by
      have hcond : !s'.dryRun ∧ s'.mode = .project := by
        rw [← hs']
        exact ⟨by simp [hdry₁, hdry], hmode₁.trans hmode⟩
      rw [persistArr, if_pos hcond, hnone]
    obtain ⟨e, he, -, hvalue, hinitValue⟩ := sameData_poolSet_none (v := .arr s₁.nextArr true) hnone
    obtain ⟨-, e', more, heq⟩ := poolSet_new hnone (.arr s₁.nextArr true)
    rw [hpersist]
    refine ⟨s₁.nextArr, e, ?_, ?_, he, hvalue, hinitValue⟩
    · rw [heq, ← hs']
      simp
    · have hnew : s'.arr? s₁.nextArr = some (.ofList data) := by
        rw [← hs']
        simp [arr?, nextArr]
      have hlast : (s'.poolSet x (.arr s₁.nextArr true)).1.arr? s₁.nextArr = some (.ofList data) :=
        (keeps_poolSet _ _ _).heap.arr? hnew
      simp [arrData, hlast, Arr.ofList]

/-- **Entries stay for good.** After a reload the pool is free of variables the program does not declare,
and later versions start them anew, exactly if it had no such entry before. -/
theorem reload_ghostFree_iff (henv : env.Sealed) (rt : Runtime) (n : ℕ) (program : List Stmt) (stdin : List String) :
    ((runtimeApply env n program rt stdin).2.NoGhost program ∧
      ∀ x ∉ prstDecls program, StartsFresh env x (runtimeApply env n program rt stdin).2) ↔
    rt.NoGhost program := by
  constructor
  · rintro ⟨h, -⟩
    exact (noGhost_runtimeApply_iff henv n program rt stdin).mp h
  · intro h
    have hafter := (noGhost_runtimeApply_iff henv n program rt stdin).mpr h
    refine ⟨hafter, fun x hx => startsFresh henv ?_⟩
    rw [← Bool.not_eq_true]
    exact fun hhas => hx (noGhost_iff_poolHas.mp hafter x hhas)

/-- `prst int x = 1`, and an assignment to it. -/
def countingVersion : List Stmt :=
  [.varDecl .int "x" (.intLit 1) true ⟨some 0, false⟩, .assign "x" (.intLit 7) ⟨some 0, false⟩]

/-- A version that declares the variable again leaves no ghost. -/
theorem countingVersion_ghostFree :
    (runtimeApply .plain 10 countingVersion (runtimeExec .plain 10 countingVersion []).2 []).2.NoGhost
        countingVersion ∧
      ∀ x ∉ prstDecls countingVersion, StartsFresh .plain x
        (runtimeApply .plain 10 countingVersion (runtimeExec .plain 10 countingVersion []).2 []).2 :=
  (reload_ghostFree_iff Env.plain_sealed _ 10 countingVersion []).mpr (by decide +kernel)

/-- After a version without `x` its entry is still there, and the next version that declares `x` gets the
value it had two versions before. -/
theorem ghost_value_returns :
    let first := (runtimeExec .plain 10 countingVersion []).2
    let second := (runtimeApply .plain 10 [] first []).2
    let third := (runtimeApply .plain 10 [.varDecl .int "x" (.intLit 1) true ⟨some 0, false⟩] second []).2
    second.poolHas "x" = true ∧ "x" ∉ prstDecls [] ∧
      ((third.lookup ⟨some 0, false⟩ "x").bind Value.int?) = some 7 := by
  decide +kernel

end Ghosts

end Fluxa
