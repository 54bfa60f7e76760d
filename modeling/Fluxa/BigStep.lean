import Fluxa.Eval

/-! What the programs of the tree walker do, as equivalences between a run and the runs of its parts.
Nothing is evaluated after an error, which is the first case of most of them. -/

namespace Fluxa

open Machine

section Machine

variable {env : Env} {s t : Runtime} {v : Value} {i : Proc}

@[simp] theorem interp_apply (u : Update) (s : Runtime) : (interp env).apply u s = u.apply s := rfl

theorem halt_of_ok (h : s.hadError = false) : (interp env).halt s = none := by simp [interp, h]

theorem halt_of_error (h : s.hadError = true) : (interp env).halt s = some .nil := by simp [interp, h]

theorem calls_ok (h : s.hadError = false) :
    (interp env).Calls i s v t ↔ (interp env).Runs (step env i) s v t := calls_iff (halt_of_ok h)

theorem calls_error (h : s.hadError = true) : (interp env).Calls i s v t ↔ v = .nil ∧ t = s :=
  calls_of_halt (halt_of_error h)

@[simp] theorem runs_invoke_bind {α : Type} {m : Bool} {a : α} (f : Value → RtProg m α) :
    (interp env).Runs (Prog.invoke i >>= f) s a t ↔
      ∃ v u, (interp env).Calls i s v u ∧ (interp env).Runs (f v) u a t := by
  simp only [runs_bind, runs_invoke]

theorem after_call {P Q : Value → Runtime → Prop} (h : ∀ x u, P x u ↔ Q x u) :
    (∃ x u, (interp env).Calls i s x u ∧ P x u) ↔ ∃ x u, (interp env).Calls i s x u ∧ Q x u := by
  simp only [h]

theorem runs_bracket_ok {m : Bool} {b : Bracket} {hb : b.inner → m} {j : b.State} (h : s.hadError = false) :
    (interp env).Runs (.bracket b hb j : RtProg m Value) s v t ↔
      ∃ u, (interp env).Iterates b j (b.enter s) v u ∧ t = b.leave s u := by
  have hg : (if (interp env).guarded b then (interp env).halt s else none) = none := by
    rw [halt_of_ok h, ite_self]
  rw [runs_bracket, hg]
  rfl

section Brackets

theorem iterates_call {inst : Option ℕ} {j : CallState} (h : s.hadError = false) :
    (interp env).Iterates (.call inst) j s v t ↔
      (∃ (j' : CallState) (u : Runtime), (interp env).Runs (callRound j) s (.inl j') u ∧
        (interp env).Iterates (.call inst) j' u v t) ∨ (interp env).Runs (callRound j) s (.inr v) t :=
  iterates_iff (by rw [halt_of_ok h, ite_self])

end Brackets

@[simp] theorem runs_undefined_false (h : s.hadError = false) :
    ¬(interp env).Runs (.undefined : RtProg false Value) s v t := by
  rw [runs_undefined]
  simp [interp, h]

/-- The state behind a part of a program: nothing more happens after an error. -/
def Continues (u : Runtime) (v : Value) (t : Runtime) (rest : Prop) : Prop :=
  if u.hadError then v = .nil ∧ t = u else rest

theorem runs_unless {u : Runtime} {p : RtProg false Value} :
    (interp env).Runs (if u.hadError then pure .nil else p) u v t ↔
      Continues u v t ((interp env).Runs p u v t) := by
  unfold Continues
  split <;> simp

end Machine

section Expressions

variable {env : Env} {s t : Runtime} {v : Value}

@[simp] theorem runs_fail {e : RtError} : (interp env).Runs (fail e) s v t ↔ v = .nil ∧ t = s.raise e := by
  simp only [fail, runs_modify_bind, runs_pure]
  rfl

theorem runs_getVar {ref : Ref} {x : Ident} : (interp env).Runs (getVar ref x) s v t ↔
    match s.lookup ref x with
    | some w => v = w ∧ t = s
    | none => v = .nil ∧ t = s.raise (.undefinedVariable x) := by
  rw [getVar, runs_read_bind]
  cases s.lookup ref x <;> simp

theorem runs_evalIdentifier {ref : Ref} {x : Ident} (hnil : x ≠ "nil") (herr : x ≠ "err") :
    (interp env).Runs (evalIdentifier x ref) s v t ↔ (interp env).Runs (getVar ref x) s v t := by
  unfold evalIdentifier
  split
  · exact absurd rfl hnil
  · exact absurd rfl herr
  · rfl

theorem runs_evalBinary {op : BinOp} {l r : Expr} : (interp env).Runs (evalBinary env op l r) s v t ↔
    ∃ x u, (interp env).Calls (.expr l) s x u ∧ Continues u v t (
      ∃ y w, (interp env).Calls (.expr r) u y w ∧ Continues w v t (
        match env.evalOp op x y with
        | .value z => v = z ∧ t = w
        | .error e => v = .nil ∧ t = w.raise e
        | .undefined => False)) := by
  simp only [evalBinary, runs_invoke_bind, runs_read_bind, runs_unless]
  refine after_call fun x u => ?_
  unfold Continues
  split
  · rfl
  refine after_call fun y w => ?_
  split
  · rfl
  · next hw =>
    cases env.evalOp op x y with
    | value z => simp
    | error e => simp
    | undefined => simp [runs_undefined_false (Bool.not_eq_true _ ▸ hw : w.hadError = false)]

theorem runs_evalNot {e : Expr} : (interp env).Runs (evalNot e) s v t ↔
    ∃ x u, (interp env).Calls (.expr e) s x u ∧ Continues u v t (v = .bool !x.truthyNot ∧ t = u) := by
  simp only [evalNot, runs_invoke_bind, runs_read_bind, runs_pure]
  refine after_call fun x u => ?_
  unfold Continues
  split <;> rfl

theorem runs_evalLogic {op : LogicOp} {l r : Expr} : (interp env).Runs (evalLogic op l r) s v t ↔
    ∃ x u, (interp env).Calls (.expr l) s x u ∧ Continues u v t (
      if op.shortCircuits x.truthyLogic then v = .bool x.truthyLogic ∧ t = u
      else ∃ y w, (interp env).Calls (.expr r) u y w ∧ Continues w v t (v = .bool y.truthyLogic ∧ t = w)) := by
  simp only [evalLogic, runs_invoke_bind, runs_read_bind, runs_unless]
  refine after_call fun x u => ?_
  unfold Continues
  split
  · rfl
  split
  · simp
  · simp only [runs_invoke_bind, runs_read_bind, runs_pure]
    refine after_call fun y w => ?_
    split <;> rfl

theorem runs_evalMemberAccess {owner field : Ident} :
    (interp env).Runs (evalMemberAccess owner field) s v t ↔
      match s.resolveInstance owner with
      | none => v = .nil ∧ t = s.raise (.undefinedInstance owner)
      | some i =>
        match s.instanceField i field with
        | some w => v = w ∧ t = s
        | none => v = .nil ∧ t = s.raise (.noMember owner field) := by
  rw [evalMemberAccess, runs_read_bind]
  cases s.resolveInstance owner with
  | none => simp
  | some i =>
    simp only
    cases s.instanceField i field <;> simp

theorem runs_evalArrAccess {name : Ident} {ref : Ref} {index : Expr} (herr : name ≠ "err") {a : ℕ} {o : Bool}
    (ha : s.arrAccessValue ref name = .arr a o) :
    (interp env).Runs (evalArrAccess name ref index) s v t ↔
      ∃ k u, (interp env).Calls (.expr index) s k u ∧
        match k with
        | .int i =>
          if 0 ≤ i.toInt ∧ i.toInt < (u.arrData a).length then
            v = (u.arrData a).getD i.toInt.toNat .nil ∧ t = u
          else v = .nil ∧ t = u.raise (.arrayIndexBounds name i.toInt (u.arrData a).length)
        | _ => v = .nil ∧ t = u.raise .arrayIndexType := by
  simp only [evalArrAccess, if_neg herr, runs_read_bind, ha, runs_invoke_bind]
  refine after_call fun k u => ?_
  cases k with
  | int i =>
    simp only [runs_read_bind]
    split <;> simp
  | _ => simp

end Expressions

section Statements

variable {env : Env} {s t : Runtime} {v : Value}

variable {name : Ident} {ref : Ref} {value e cond : Expr}

theorem runs_evalFor {f : Value → Update} : (interp env).Runs (evalFor e f) s v t ↔
    ∃ x u, (interp env).Calls (.expr e) s x u ∧ Continues u v t (v = .nil ∧ t = (f x).apply u) := by
  simp only [evalFor, runs_invoke_bind, runs_read_bind, runs_unless, runs_modify_bind, runs_pure]
  rfl

theorem runs_execVarDecl {ty : TypeName} {init : Expr} {persistent : Bool}
    (h : ¬(persistent = true ∧ s.mode = .project)) : (interp env).Runs (execVarDecl ty name init persistent ref) s v t ↔
      ∃ x u, (interp env).Calls (.expr init) s x u ∧
        Continues u v t (v = .nil ∧ t = u.declareVar ty ref name x s.errStack.length) := by
  simp only [execVarDecl, runs_read_bind, if_neg h, runs_evalFor]
  rfl

theorem runs_execAssign :
    (interp env).Runs (execAssign name value ref) s v t ↔
      ∃ x u, (interp env).Calls (.expr value) s x u ∧
        Continues u v t (v = .nil ∧ t = u.assignVar name ref x s.errStack.length) := by
  simp only [execAssign, runs_read_bind, runs_evalFor]
  rfl

theorem runs_execIf {thn : List Stmt} {els : Option (List Stmt)} :
    (interp env).Runs (execIf cond thn els) s v t ↔ ∃ x u, (interp env).Calls (.expr cond) s x u ∧
      if x.truthy then (interp env).Calls (.block thn) u v t
      else match els with
        | some els => (interp env).Calls (.block els) u v t
        | none => v = .nil ∧ t = u := by
  simp only [execIf, runs_invoke_bind]
  refine after_call fun x u => ?_
  split
  · exact runs_invoke _ _ _ _
  · cases els with
    | none => simp
    | some els => exact runs_invoke _ _ _ _

@[simp] theorem runs_runBlock_nil : (interp env).Runs (runBlock []) s v t ↔ v = .nil ∧ t = s := by
  simp [runBlock]

theorem runs_runBlock_cons {st : Stmt} {rest : List Stmt} :
    (interp env).Runs (runBlock (st :: rest)) s v t ↔ ∃ x u, (interp env).Calls (.stmt st) s x u ∧
      if u.hadError || u.ret.active then v = .nil ∧ t = u else (interp env).Runs (runBlock rest) u v t := by
  simp only [runBlock, runs_invoke_bind, runs_read_bind]
  refine after_call fun x u => ?_
  split <;> simp

theorem runs_execWhile {body : List Stmt} (henv : env.compileLoops = false)
    (hs : s.hadError = false) : (interp env).Runs (execWhile env cond body) s v t ↔
      (interp env).Iterates .loop (LoopState.while cond body env.whileLimit) s v t := by
  simp only [execWhile, runs_read_bind, henv, Bool.false_eq_true, if_false]
  refine (runs_bracket_ok hs).trans ?_
  exact ⟨fun ⟨u, hu, ht⟩ => by rw [ht]; exact hu, fun h => ⟨t, h, rfl⟩⟩

theorem runs_whileRound {body : List Stmt} {r : LoopState ⊕ Value} :
    (interp env).Runs (whileRound cond body none) s r t ↔ ∃ x u, (interp env).Calls (.expr cond) s x u ∧
      if u.hadError || u.ret.active || !x.truthy then r = .inr .nil ∧ t = u
      else ∃ y, (interp env).Calls (.block body) u y t ∧
        r = if t.hadError || t.ret.active then .inr .nil else .inl (.while cond body none) := by
  simp only [whileRound, reduceCtorEq, if_false, runs_invoke_bind, runs_read_bind]
  refine after_call fun x u => ?_
  split
  · simp
  · simp only [runs_invoke_bind, runs_read_bind]
    constructor
    · rintro ⟨y, w, hc, hr⟩
      split at hr <;> simp only [runs_pure] at hr <;> obtain ⟨rfl, rfl⟩ := hr
      · next h => exact ⟨y, hc, by rw [if_pos h]⟩
      · next h => exact ⟨y, hc, by rw [if_neg h]; rfl⟩
    · rintro ⟨y, hc, rfl⟩
      refine ⟨y, t, hc, ?_⟩
      split <;> simp

theorem runs_execElemStore {a idx : ℕ} :
    (interp env).Runs (execElemStore name a idx value) s v t ↔
      ∃ x u, (interp env).Calls (.expr value) s x u ∧ Continues u v t (
        let old := (u.arrData a).getD idx .nil
        if u.errStack.length = s.errStack.length ∧ old.type ≠ .nil ∧ old.type ≠ x.type then
          v = .nil ∧ t = u.raise (.elementType name idx old.type x.type)
        else v = .nil ∧ t = u.storeElem name a idx x) := by
  simp only [execElemStore, runs_read_bind, runs_invoke_bind, runs_unless]
  refine after_call fun x u => ?_
  unfold Continues
  split
  · rfl
  · split
    · simp
    · simp only [runs_modify_bind, runs_pure, interp_apply]
      rfl

theorem runs_execArrStore {index : Expr} :
    (interp env).Runs (execArrStore name ref index value) s v t ↔
      ∃ k u, (interp env).Calls (.expr index) s k u ∧ Continues u v t (
        match k with
        | .int i =>
          match u.arrTarget ref name with
          | none => v = .nil ∧ t = u.raise (.notAnArray name)
          | some a =>
            if 0 ≤ i.toInt ∧ i.toInt < (u.arrData a).length then
              (interp env).Runs (execElemStore name a i.toInt.toNat value) u v t
            else v = .nil ∧ t = u.raise (.arrayIndexBounds name i.toInt (u.arrData a).length)
        | _ => v = .nil ∧ t = u.raise .arrayIndexType) := by
  simp only [execArrStore, runs_invoke_bind, runs_read_bind, runs_unless]
  refine after_call fun k u => ?_
  unfold Continues
  split
  · rfl
  · cases k with
    | int i =>
      simp only
      cases u.arrTarget ref name with
      | none => simp
      | some a =>
        simp only
        split <;> simp
    | _ => simp

theorem raise_clear (hs : s.hadError = false) (hcalm : s.dangerDepth = 0) (e : RtError) :
    Update.clearError.apply (s.raise e) = s := by
  cases s
  subst hs hcalm
  rfl

/-- The first look at the variable of an element store leaves no trace outside `danger`. -/
theorem runs_execArrAssign {index : Expr} (hs : s.hadError = false)
    (hcalm : s.dangerDepth = 0 ∨ (s.lookup ref name).isSome) (hdyn : ∀ d, s.lookup ref name ≠ some (.dyn d)) :
    (interp env).Runs (execArrAssign name ref index value) s v t ↔
      (interp env).Runs (execArrStore name ref index value) s v t := by
  rw [execArrAssign, runs_bind]
  simp only [runs_getVar, runs_read_bind]
  cases hl : s.lookup ref name with
  | none =>
    have hcalm : s.dangerDepth = 0 := hcalm.resolve_right (by simp [hl])
    have herr : (s.raise (.undefinedVariable name)).hadError = true := by simp [Runtime.raise, hcalm]
    constructor
    · rintro ⟨x, u, ⟨rfl, rfl⟩, hrun⟩
      simpa only [herr, if_true, runs_modify_bind, interp_apply, raise_clear hs hcalm] using hrun
    · intro hrun
      refine ⟨.nil, _, ⟨rfl, rfl⟩, ?_⟩
      simpa only [herr, if_true, runs_modify_bind, interp_apply, raise_clear hs hcalm] using hrun
  | some x =>
    constructor
    · rintro ⟨x, u, ⟨rfl, rfl⟩, hrun⟩
      cases x <;> simp_all
    · intro hrun
      refine ⟨x, s, ⟨rfl, rfl⟩, ?_⟩
      cases x <;> simp_all

theorem runs_execMemberAssign {owner field : Ident} :
    (interp env).Runs (execMemberAssign owner field e) s v t ↔
      match s.resolveInstance owner with
      | none => v = .nil ∧ t = s.raise (.undefinedInstance owner)
      | some i => (interp env).Runs (evalFor e (.setField i field)) s v t := by
  rw [execMemberAssign, runs_read_bind]
  cases s.resolveInstance owner <;> simp

theorem runs_execReturn (he : ∀ name args, e ≠ .funcCall name args) :
    (interp env).Runs (execReturn env (some e)) s v t ↔
      ∃ u, (interp env).Calls (.expr e) s v u ∧ t = (Update.setReturn v).apply u := by
  let ordinary : RtProg false Value := do
    let x ← Prog.invoke (.expr e)
    Prog.modify (.setReturn x)
    pure x
  have hrun : (interp env).Runs ordinary s v t ↔
      ∃ u, (interp env).Calls (.expr e) s v u ∧ t = (Update.setReturn v).apply u := by
    simp only [ordinary, runs_invoke_bind, runs_modify_bind, runs_pure]
    constructor
    · rintro ⟨x, u, hc, rfl, ht⟩
      exact ⟨u, hc, ht⟩
    · rintro ⟨u, hc, ht⟩
      exact ⟨v, u, hc, rfl, ht⟩
  rw [← hrun, execReturn, runs_read_bind]
  cases e <;> first
    | rfl
    | exact absurd rfl (he _ _)

theorem runs_runBody_cons {st : Stmt} {rest : List Stmt} :
    (interp env).Runs (runBody (st :: rest)) s () t ↔ ∃ v u, (interp env).Calls (.stmt st) s v u ∧
      if u.hadError || u.ret.active || u.ret.tailCall.isSome then t = u
      else (interp env).Runs (runBody rest) u () t := by
  simp only [runBody, runs_invoke_bind, runs_read_bind]
  refine after_call fun v u => ?_
  split <;> simp

end Statements

end Fluxa
