import Fluxa.Base.Contract
import Fluxa.Eval
import Fluxa.Provenance

/-! No program of the interpreter makes up code: what it calls, declares or stores comes from the node it
evaluates or from the state. So the functions and the names in the pool always come from the program, and
every node leaves the running instance as it was. -/

open Prog (read modify invoke undefined bracket)

namespace Fluxa

/-- Operators and libraries make no functions. -/
structure Env.Sealed (env : Env) : Prop where
  evalOp : ∀ op x y v, env.evalOp op x y = .value v → v.type ≠ .func
  vmOp : ∀ op x y v, env.vmOp op x y = some v → v.type ≠ .func
  lib : ∀ owner call, env.lib owner = some call → ∀ method args, (call method args).value.type ≠ .func
  ffi : ∀ owner call, env.ffi owner = some call → ∀ symbol args, (call symbol args).value.type ≠ .func ∧
    ∀ p ∈ (call symbol args).written, p.2.type ≠ .func

theorem vmBinaryOp_ne_func {op : BinOp} {l r v : Value} (h : vmBinaryOp op l r = some v) : v.type ≠ .func := by
  have hlong {i : Option Int64} (h : Value.ofLong? i = some v) : v.type ≠ .func := by simp [Value.type_of_ofLong h]
  have hdouble {both : Bool} {d : Binary64.Double} (h : Value.ofDouble both d = some v) : v.type ≠ .func := by
    rcases Value.type_of_ofDouble h with h | h <;> simp [h]
  have harith {op : BinOp} (h : vmArith op l r = some v) : v.type ≠ .func := by
    unfold vmArith at h
    dsimp only at h
    split at h
    case h_5 =>
      split at h
      · obtain ⟨b, -, h⟩ := Option.bind_eq_some_iff.mp h
        split at h
        · cases h
          simp [Value.type]
        · exact hlong h
      · cases h
        simp [Value.type]
    all_goals exact hdouble h
  have hcompare (op : BinOp) : (vmCompare op l r).type ≠ .func := by
    unfold vmCompare
    repeat' split
    all_goals simp [Value.type]
  unfold vmBinaryOp at h
  split at h
  case h_8 =>
    cases h
    exact hcompare _
  all_goals first | exact hlong h | exact harith h

theorem Env.plain_sealed : Env.plain.Sealed where
  evalOp op x y v h := by
    rcases evalBinaryOp_scalar h with h | h | h <;> simp [h]
  vmOp op x y v h := vmBinaryOp_ne_func h
  lib owner call h := by simp [Env.plain] at h
  ffi owner call h := by simp [Env.plain] at h

/-- The operators and libraries make functions with such bodies only. -/
structure Env.In (D : Set Ident) (env : Env) : Prop where
  evalOp : ∀ op x y v, env.evalOp op x y = .value v → v.In D
  vmOp : ∀ op x y v, env.vmOp op x y = some v → v.In D
  lib : ∀ owner call, env.lib owner = some call → ∀ method args, (call method args).value.In D
  ffi : ∀ owner call, env.ffi owner = some call → ∀ symbol args, (call symbol args).value.In D ∧
    ∀ p ∈ (call symbol args).written, p.2.In D

theorem Env.Sealed.in {env : Env} (h : env.Sealed) (D : Set Ident) : env.In D where
  evalOp op x y v hv := Value.in_of_plain (h.evalOp op x y v hv)
  vmOp op x y v hv := Value.in_of_plain (h.vmOp op x y v hv)
  lib owner call hcall method args := Value.in_of_plain (h.lib owner call hcall method args)
  ffi owner call hcall symbol args := by
    obtain ⟨hvalue, hwritten⟩ := h.ffi owner call hcall symbol args
    exact ⟨Value.in_of_plain hvalue, fun p hp => Value.in_of_plain (hwritten p hp)⟩

/-- Everything comes from a program that declares the persistent variables `D`. -/
def origin (D : Set Ident) : Contract (Option ℕ) Runtime Proc Value Bracket.State where
  inv g rt := rt.In D g
  res v := v.In D
  proc
    | .expr _ => True
    | .stmt st => ∀ x ∈ prstDeclsOf st, x ∈ D
    | .block body => ∀ x ∈ prstDecls body, x ∈ D
  loop
    | .loop, .while _ body _ => ∀ x ∈ prstDecls body, x ∈ D
    | .loop, .forIn _ _ body _ _ => ∀ x ∈ prstDecls body, x ∈ D
    | .danger, body => ∀ x ∈ prstDecls body, x ∈ D
    | .call _, j => j.fn.In D ∧ ∀ v ∈ j.args, v.In D
    | .fallback _, j => j.fn.In D ∧ ∀ v ∈ j.args, v.In D
    | .vm, j => ∀ i ∈ j.code, i.In D
    | .vmFn, j => (∀ i ∈ j.code, i.In D) ∧ ∀ k, (j.regs k).In D
  may _ _ := True

/-- What can be known of the state along a program: `g` is known of it, and with `g` frames may be made or not. -/
structure View (D : Set Ident) (γ : Type) where
  inv : γ → Runtime → Prop
  frame : γ → Prop
  origin : ∀ {g rt}, inv g rt → rt.In D rt.currentInstance
  update : ∀ {u : Update} {g rt}, u.In D → inv g rt → inv g (u.apply rt)
  switch : ∀ {g rt} i, inv g rt → ∃ g', (∀ s, inv g s → inv g' (Update.apply (.setInstance i) s)) ∧
    ∀ s, inv g' s → inv g (Update.apply (.setInstance rt.currentInstance) s)
  frame_of_depth : ∀ {g rt}, inv g rt → rt.callDepth < fluxaMaxDepth → frame g

namespace View

variable {D : Set Ident} {γ : Type}

def may (V : View D γ) (g : γ) : Bracket → Prop
  | .call _ | .fallback _ => V.frame g
  | _ => True

def contract (V : View D γ) : Contract γ Runtime Proc Value Bracket.State :=
  { Fluxa.origin D with inv := V.inv, may := V.may }

end View

end Fluxa

/-- The program keeps to what is known, whatever that is. -/
def Prog.Follows {D : Set Fluxa.Ident} {γ : Type} (env : Fluxa.Env) (V : Fluxa.View D γ) {m : Bool} {α : Type}
    (post : α → Prop) (p : Fluxa.RtProg m α) : Prop :=
  ∀ g, p.Abides (Fluxa.interp env) V.contract g post g

theorem Prog.Follows.bind {D : Set Fluxa.Ident} {γ : Type} {env : Fluxa.Env} {V : Fluxa.View D γ} {m : Bool}
    {α δ : Type} {post : α → Prop} {q : δ → Prop} {p : Fluxa.RtProg m α} {f : α → Fluxa.RtProg m δ}
    (hp : p.Follows env V post) (hf : ∀ a, post a → (f a).Follows env V q) : (p >>= f).Follows env V q :=
  fun g => (hp g).bind fun a ha => hf a ha g

namespace Fluxa

variable {env : Env} {D : Set Ident} {γ : Type} {V : View D γ} {m : Bool}

section Rules

variable {α : Type} {post : α → Prop}

theorem follows_pure {a : α} (h : post a) : (pure a : RtProg m α).Follows env V post := fun _ => ⟨rfl, h⟩

theorem follows_nil : (pure .nil : RtProg m Value).Follows env V (Value.In D) := follows_pure Value.in_nil

theorem follows_read : (read : RtProg m Runtime).Follows env V fun rt => ∃ g, rt.In D g :=
  fun _ _ hrt => ⟨rfl, _, V.origin hrt⟩

/-- The code looks at the state and goes on, or gives up. -/
theorem follows_unless {P : Runtime → Prop} [DecidablePred P] {a : α} {p : Runtime → RtProg m α} (ha : post a)
    (hp : ∀ rt, (∃ g, rt.In D g) → (p rt).Follows env V post) :
    (read >>= fun rt => if P rt then pure a else p rt).Follows env V post := by
  refine follows_read.bind fun rt hrt => ?_
  split
  · exact follows_pure ha
  · exact hp rt hrt

theorem follows_update {u : Update} (hu : u.In D) : (modify u : RtProg m Unit).Follows env V fun _ => True :=
  fun _ => Prog.abides_modify fun _ => V.update hu

theorem follows_modify {u : Update} {p : RtProg m α} (hu : u.In D) (hp : p.Follows env V post) :
    (do modify u; p).Follows env V post := (follows_update hu).bind fun _ _ => hp

theorem follows_do {u : Update} (hu : u.In D) : (do modify u; pure .nil : RtProg m Value).Follows env V (Value.In D) :=
  follows_modify hu follows_nil

theorem follows_invoke {i : Proc} (h : (origin D).proc i) : (invoke i : RtProg m Value).Follows env V (Value.In D) :=
  fun _ => ⟨h, fun _ hr => ⟨rfl, hr⟩⟩

/-- A statement of a list, and the rest of it unless the run is over. -/
theorem follows_stmt_unless {st : Stmt} {P : Runtime → Prop} [DecidablePred P] {a : α} {p : RtProg m α}
    (hst : (origin D).proc (.stmt st)) (ha : post a) (hp : p.Follows env V post) :
    (do let _ ← invoke (Proc.stmt st); if P (← read) then pure a else p).Follows env V post :=
  Prog.Follows.bind (follows_invoke hst) fun _ _ => follows_unless ha fun _ _ => hp

theorem follows_bracket {b : Bracket} {j : b.State} {hb : b.inner → m} (h : (origin D).loop b j)
    (hmay : ∀ g, V.may g b) : (bracket b hb j : RtProg m Value).Follows env V (Value.In D) :=
  fun g => ⟨⟨hmay g, h⟩, fun _ hr => ⟨rfl, hr⟩⟩

theorem follows_undefined : (undefined : RtProg m Value).Follows env V (Value.In D) := fun _ _ hr => ⟨rfl, hr⟩

theorem follows_frame {p : RtProg m Value} {q : Runtime → RtProg m Value} (hp : p.Follows env V (Value.In D))
    (hq : ∀ rt g, V.frame g → (q rt).Abides (interp env) V.contract g (Value.In D) g) :
    (do let rt ← (read : RtProg m Runtime); if fluxaMaxDepth ≤ rt.callDepth then p else q rt).Follows env V
      (Value.In D) := by
  intro g rt hrt
  change Prog.Abides _ _ _ _ (if _ then p else q rt) g
  split
  · exact hp g
  · next hdepth => exact hq rt g (V.frame_of_depth hrt (Nat.lt_of_not_le hdepth))

end Rules

section Expressions

theorem follows_fail (e : RtError) : (fail e).Follows env V (Value.In D) :=
  follows_do trivial

theorem follows_failHard (e : RtError) : (failHard e).Follows env V (Value.In D) :=
  follows_do trivial

theorem follows_expr (e : Expr) : (invoke (.expr e) : RtProg false Value).Follows env V (Value.In D) :=
  follows_invoke trivial

theorem follows_getVar (ref : Ref) (name : Ident) : (getVar ref name).Follows env V (Value.In D) := by
  refine follows_read.bind fun rt ⟨g, hrt⟩ => ?_
  split
  · next v hv => exact follows_pure (hrt.lookup hv)
  · exact follows_fail _

theorem follows_evalArgs (args : List Expr) : (evalArgs args).Follows env V fun vs => ∀ v ∈ vs, v.In D := by
  induction args with
  | nil => exact follows_pure (by simp)
  | cons e es ih =>
    exact (follows_expr e).bind fun v hv => ih.bind fun vs hvs => follows_pure (List.forall_mem_cons.mpr ⟨hv, hvs⟩)

theorem follows_callFunction {fn : FuncDecl} (hfn : fn.In D) (args : List Expr) (inst : Option ℕ) :
    (callFunction fn args inst).Follows env V (Value.In D) := by
  refine follows_frame (follows_fail _) fun _ g hframe => ?_
  split
  · exact follows_fail _ g
  · refine (follows_evalArgs args g).bind fun vs hvs => (follows_read g).bind fun _ _ => ?_
    exact ⟨⟨hframe, hfn, hvs⟩, fun _ hr => ⟨rfl, hr⟩⟩

theorem follows_evalPrompt (args : List Expr) : (evalPrompt args).Follows env V fun _ => True := by
  cases args with
  | nil => exact follows_pure trivial
  | cons e es => exact (follows_expr e).bind fun _ _ => follows_pure trivial

theorem follows_builtinLen (args : List Expr) : (builtinLen args).Follows env V (Value.In D) := by
  unfold builtinLen
  split
  · refine (follows_expr _).bind fun v _ => follows_unless (by simp) fun rt _ => ?_
    split
    · exact follows_pure (by simp)
    · exact follows_failHard _
  · exact follows_failHard _

theorem follows_builtinStrAlloc (args : List Expr) : (builtinStrAlloc args).Follows env V (Value.In D) := by
  unfold builtinStrAlloc
  split
  · refine (follows_expr _).bind fun v _ => follows_unless (by simp) fun rt _ => ?_
    split
    · split
      · exact follows_pure (by simp)
      · exact follows_failHard _
    · exact follows_failHard _
  · exact follows_failHard _

theorem follows_readInt : (readInt : RtProg m Value).Follows env V (Value.In D) := by
  refine follows_read.bind fun rt _ => ?_
  split
  · exact follows_pure (by simp)
  · refine follows_modify trivial <| ?_
    split
    · exact follows_pure (by simp)
    · exact follows_undefined

theorem follows_builtinInput (args : List Expr) : (builtinInput args).Follows env V (Value.In D) := by
  refine (follows_evalPrompt args).bind fun _ _ => follows_read.bind fun rt _ => ?_
  split
  · exact follows_pure (by simp)
  · exact follows_modify trivial <| follows_pure (by simp)

theorem follows_builtinDispatch (name : Ident) (args : List Expr) :
    (builtinDispatch name args).Follows env V (Value.In D) := by
  unfold builtinDispatch
  split
  · exact (follows_evalArgs args).bind fun _ _ => follows_nil
  · exact follows_builtinLen args
  · exact follows_builtinInput args
  · exact (follows_evalPrompt args).bind fun _ _ => follows_readInt
  · exact follows_builtinStrAlloc args
  · exact follows_nil

theorem follows_evalIdentifier (name : Ident) (ref : Ref) : (evalIdentifier name ref).Follows env V (Value.In D) := by
  unfold evalIdentifier
  split
  · exact follows_nil
  · refine follows_read.bind fun rt _ => follows_pure ?_
    split <;> simp
  · exact follows_getVar _ _

theorem follows_evalBinary (henv : env.In D) (op : BinOp) (l r : Expr) :
    (evalBinary env op l r).Follows env V (Value.In D) := by
  refine (follows_expr l).bind fun x _ => follows_unless (by simp) fun rt _ => ?_
  refine (follows_expr r).bind fun y _ => follows_unless (by simp) fun rt _ => ?_
  split
  · next v hv => exact follows_pure (henv.evalOp _ _ _ _ hv)
  · exact follows_fail _
  · exact follows_undefined

theorem follows_evalNot (e : Expr) : (evalNot e).Follows env V (Value.In D) := by
  refine (follows_expr e).bind fun v _ => follows_read.bind fun rt _ => follows_pure ?_
  split <;> simp

theorem follows_evalLogic (op : LogicOp) (l r : Expr) : (evalLogic op l r).Follows env V (Value.In D) := by
  refine (follows_expr l).bind fun x _ => follows_unless (by simp) fun rt _ => ?_
  split
  · exact follows_pure (by simp)
  · refine (follows_expr r).bind fun y _ => follows_read.bind fun rt _ => follows_pure ?_
    split <;> simp

theorem Runtime.In.findFunc {g : Option ℕ} {rt : Runtime} (h : rt.In D g) {name : Ident} {v : Value}
    (hv : rt.findFunc name = some v) : v.In D := by
  unfold Runtime.findFunc at hv
  split at hv
  · next w hw =>
    cases hv
    exact h.of_scope hw
  · split at hv
    · next fn hfn =>
      cases hv
      exact Value.in_func.mpr (h.currentMethod hfn)
    · split at hv
      · exact h.of_global hv
      · cases hv

theorem follows_evalFuncCall (name : Ident) (args : List Expr) :
    (evalFuncCall name args).Follows env V (Value.In D) := by
  unfold evalFuncCall
  split
  · exact follows_builtinDispatch name args
  · refine follows_read.bind fun rt ⟨g, hrt⟩ => ?_
    split
    · exact follows_fail _
    · next fn hfn => exact follows_callFunction (Value.in_func.mp (hrt.findFunc hfn)) args _
    · exact follows_fail _

theorem follows_evalMemberAccess (owner field : Ident) : (evalMemberAccess owner field).Follows env V (Value.In D) := by
  refine follows_read.bind fun rt ⟨g, hrt⟩ => ?_
  split
  · exact follows_fail _
  · split
    · next v hv => exact follows_pure (hrt.instanceField hv)
    · exact follows_fail _

theorem follows_evalLibArgs (args : List Expr) : (evalLibArgs args).Follows env V fun _ => True := by
  induction args with
  | nil => exact follows_pure trivial
  | cons e es ih =>
    refine (follows_expr e).bind fun v _ => follows_unless trivial fun rt _ => ?_
    exact ih.bind fun _ _ => follows_pure trivial

theorem follows_writeBack (args : List Expr) {written : List (ℕ × Value)} (h : ∀ p ∈ written, p.2.In D) :
    (writeBack args written).Follows env V fun _ => True := by
  induction written with
  | nil => exact follows_pure trivial
  | cons p rest ih =>
    obtain ⟨hp, hrest⟩ := List.forall_mem_cons.mp h
    have harg : (writeArg args p.1 p.2).Follows env V fun _ => True := by
      unfold writeArg
      split
      · exact follows_modify hp (follows_pure trivial)
      · exact follows_pure trivial
    exact harg.bind fun _ _ => ih hrest

theorem follows_evalFfiCall {call : Ident → List Value → FfiResult} {owner : Ident} (henv : env.In D)
    (hcall : env.ffi owner = some call) (method : Ident) (args : List Expr) :
    (evalFfiCall call owner method args).Follows env V (Value.In D) := by
  refine follows_read.bind fun rt _ => ?_
  split
  · exact follows_fail _
  · refine (follows_evalArgs args).bind fun vs _ => follows_unless (by simp) fun rt _ => ?_
    obtain ⟨hvalue, hwritten⟩ := henv.ffi owner call hcall method vs
    exact follows_modify trivial ((follows_writeBack args hwritten).bind fun _ _ => follows_pure hvalue)

theorem follows_evalMemberCall (henv : env.In D) (owner method : Ident) (args : List Expr) :
    (evalMemberCall env owner method args).Follows env V (Value.In D) := by
  refine (follows_evalLibArgs _).bind fun vs _ => ?_
  split
  · exact follows_nil
  · split
    · next call hcall =>
      exact follows_modify trivial <| follows_pure (henv.lib _ _ hcall _ _)
    · refine follows_read.bind fun rt ⟨g, hrt⟩ => ?_
      split
      · split
        · next call hcall => exact follows_evalFfiCall henv hcall method args
        · exact follows_fail _
      · split
        · exact follows_fail _
        · next fn hfn => exact follows_callFunction (hrt.instanceMethod hfn) args _

theorem follows_evalErrAccess (index : Expr) : (evalErrAccess index).Follows env V (Value.In D) := by
  have hmessage (o : Option ErrEntry) : ((o.map fun e => Value.str e.error.message).getD .nil).In D := by
    cases o <;> simp
  refine follows_unless (by simp) fun rt _ => ?_
  refine (follows_expr index).bind fun v _ => ?_
  split
  · refine follows_read.bind fun rt _ => ?_
    dsimp only
    split
    · exact follows_pure (hmessage _)
    · exact follows_nil
  · exact follows_fail _

theorem follows_evalArrAccess (name : Ident) (ref : Ref) (index : Expr) :
    (evalArrAccess name ref index).Follows env V (Value.In D) := by
  unfold evalArrAccess
  split
  · exact follows_evalErrAccess index
  · refine follows_read.bind fun rt _ => ?_
    split
    · refine (follows_expr index).bind fun v _ => ?_
      split
      · refine follows_read.bind fun rt ⟨g, hrt⟩ => ?_
        dsimp only
        split
        · exact follows_pure (Value.in_getD (hrt.dynItems _) _)
        · exact follows_fail _
      · exact follows_fail _
    · refine (follows_expr index).bind fun v _ => ?_
      split
      · refine follows_read.bind fun rt ⟨g, hrt⟩ => ?_
        dsimp only
        split
        · exact follows_pure (Value.in_getD (hrt.arrData _) _)
        · exact follows_fail _
      · exact follows_fail _
    · exact follows_fail _

theorem follows_evalDynElements (es : List Expr) {items : List Value} (hitems : ∀ v ∈ items, v.In D) :
    (evalDynElements es items).Follows env V fun o => ∀ vs ∈ o, ∀ v ∈ vs, v.In D := by
  induction es generalizing items with
  | nil => exact follows_pure (by simpa using hitems)
  | cons e es ih =>
    refine (follows_expr e).bind fun v hv => follows_unless nofun fun rt ⟨g, hrt⟩ => ?_
    split
    · exact follows_modify trivial <| follows_pure nofun
    · refine follows_modify hv <| ih ?_
      exact List.forall_mem_append.mpr ⟨hitems, by simpa using (hrt.adopt hv).1⟩

theorem follows_evalDynLit (elements : List Expr) : (evalDynLit elements).Follows env V (Value.In D) := by
  refine (follows_evalDynElements elements (List.forall_mem_nil _)).bind fun o ho => ?_
  split
  · exact follows_nil
  · next items =>
    exact follows_read.bind fun rt _ => follows_modify (ho items rfl) <| follows_pure (by simp)

theorem follows_evalIndexedInst (name : Ident) (ref : Ref) (index : Expr) :
    (evalIndexedInst name ref index).Follows env V fun _ => True := by
  have hfailed (e : RtError) :
      (do modify (.raise e); pure none : RtProg false (Option (ℕ × ℕ))).Follows env V fun _ => True :=
    follows_modify trivial <| follows_pure trivial
  refine (follows_getVar ref name).bind fun v _ => follows_unless trivial fun rt _ => ?_
  split
  · refine (follows_expr index).bind fun idx _ => follows_unless trivial fun rt _ => ?_
    split
    · dsimp only
      split
      · split
        · exact follows_pure trivial
        · exact hfailed _
      · exact hfailed _
    · exact hfailed _
  · exact hfailed _

theorem follows_evalIndexedMemberAccess (name : Ident) (ref : Ref) (index : Expr) (field : Ident) :
    (evalIndexedMemberAccess name ref index field).Follows env V (Value.In D) := by
  refine (follows_evalIndexedInst name ref index).bind fun o _ => ?_
  split
  · exact follows_nil
  · refine follows_read.bind fun rt ⟨g, hrt⟩ => ?_
    split
    · next v hv => exact follows_pure (hrt.instanceField hv)
    · exact follows_fail _

theorem follows_evalIndexedMemberCall (name : Ident) (ref : Ref) (index : Expr) (method : Ident) (args : List Expr) :
    (evalIndexedMemberCall name ref index method args).Follows env V (Value.In D) := by
  refine (follows_evalIndexedInst name ref index).bind fun o _ => ?_
  split
  · exact follows_nil
  · next b i =>
    intro g rt hrt
    dsimp only [Prog.bind]
    split
    · exact follows_fail _ g
    · next fn hfn =>
      obtain ⟨g', henter, hleave⟩ := V.switch (some b) hrt
      refine Prog.Abides.bind (Prog.abides_modify henter) fun _ _ => ?_
      refine Prog.Abides.bind (follows_callFunction ((V.origin hrt).instanceMethod hfn) args _ g') fun v hv => ?_
      refine Prog.Abides.bind (Prog.abides_modify hleave) fun _ _ => ?_
      exact follows_pure hv g

theorem follows_evalExpr (henv : env.In D) (e : Expr) : (evalExpr env e).Follows env V (Value.In D) := by
  cases e with
  | intLit | floatLit | boolLit | stringLit => exact follows_pure (by simp)
  | identifier name ref => exact follows_evalIdentifier name ref
  | binary op l r => exact follows_evalBinary henv op l r
  | logic op l r => exact follows_evalLogic op l r
  | not e => exact follows_evalNot e
  | funcCall name args => exact follows_evalFuncCall name args
  | memberAccess owner field => exact follows_evalMemberAccess owner field
  | memberCall owner method args => exact follows_evalMemberCall henv owner method args
  | arrAccess name ref index => exact follows_evalArrAccess name ref index
  | dynLit elements => exact follows_evalDynLit elements
  | indexedMemberAccess name ref index field => exact follows_evalIndexedMemberAccess name ref index field
  | indexedMemberCall name ref index method args => exact follows_evalIndexedMemberCall name ref index method args

end Expressions

section Calls

theorem follows_runBody {body : List Stmt} (h : ∀ x ∈ prstDecls body, x ∈ D) :
    (runBody body).Follows env V fun _ => True := by
  induction body with
  | nil => exact follows_pure trivial
  | cons st rest ih =>
    obtain ⟨hst, hrest⟩ := List.forall_mem_append.mp h
    exact follows_stmt_unless hst trivial (ih hrest)

theorem follows_copyResult {v : Value} (hv : v.In D) : (copyResult v).Follows env V (Value.In D) := by
  unfold copyResult
  split
  · refine follows_read.bind fun rt ⟨g, hrt⟩ => ?_
    split
    · next b hb =>
      split
      · exact follows_pure hv
      · refine follows_modify ?_ <| follows_pure (by simp)
        exact hrt.arrs b (List.mem_of_getElem? hb)
    · exact follows_pure hv
  · exact follows_pure hv

theorem Runtime.In.returned {g : Option ℕ} {rt : Runtime} (h : rt.In D g) :
    (if rt.ret.active then rt.ret.value else .nil).In D := by
  split
  · exact h.retValue
  · simp

theorem follows_callRound (inst : Option ℕ) {j : CallState} (hj : (origin D).loop (.call inst) j) :
    (callRound j).Follows env V (Sum.elim ((origin D).loop (.call inst)) (origin D).res) := by
  obtain ⟨hfn, hargs⟩ := hj
  have hrefs : ∀ v ∈ j.args.map Value.arrRef, v.In D := by
    intro v hv
    obtain ⟨w, hw, rfl⟩ := List.mem_map.mp hv
    exact (hargs w hw).arrRef
  refine follows_modify ⟨hfn, hrefs⟩ <| (follows_runBody hfn).bind fun _ _ =>
    follows_read.bind fun rt ⟨g, hrt⟩ => ?_
  split
  · exact follows_modify trivial <| follows_pure Value.in_nil
  · split
    · next fn args heq =>
      split
      · exact follows_modify trivial <| follows_modify trivial <| follows_pure Value.in_nil
      · exact follows_modify trivial <| follows_pure (hrt.tailCall _ heq)
    · exact follows_modify trivial <| (follows_copyResult hrt.returned).bind fun v hv =>
        follows_modify trivial <| follows_pure hv

theorem follows_fallbackRound (inst : Option ℕ) {j : CallState} (hj : (origin D).loop (.fallback inst) j) :
    (fallbackRound j).Follows env V
      (Sum.elim ((origin D).loop (.fallback inst)) (origin D).res) := by
  unfold fallbackRound
  split
  · exact follows_modify trivial <| follows_modify trivial <| follows_pure Value.in_nil
  · refine follows_modify hj <| (follows_runBody hj.1).bind fun _ _ =>
      follows_read.bind fun rt ⟨g, hrt⟩ => ?_
    split
    · exact follows_modify trivial <| follows_pure Value.in_nil
    · split
      · next fn args heq => exact follows_modify trivial <| follows_pure (hrt.tailCall _ heq)
      · exact follows_modify trivial <| follows_modify trivial <| follows_pure hrt.returned

end Calls

section Statements

variable {body : List Stmt} {name : Ident}

theorem follows_block (h : ∀ x ∈ prstDecls body, x ∈ D) :
    (invoke (.block body) : RtProg false Value).Follows env V (Value.In D) :=
  follows_invoke (i := .block body) h

theorem follows_runBlock (h : ∀ x ∈ prstDecls body, x ∈ D) : (runBlock body).Follows env V (Value.In D) := by
  induction body with
  | nil => exact follows_nil
  | cons st rest ih =>
    obtain ⟨hst, hrest⟩ := List.forall_mem_append.mp h
    exact follows_stmt_unless hst Value.in_nil (ih hrest)

theorem follows_evalFor (e : Expr) {u : Value → Update} (hu : ∀ v, v.In D → (u v).In D) :
    (evalFor e u).Follows env V (Value.In D) := by
  refine (follows_expr e).bind fun v hv => follows_unless (by simp) fun rt _ => ?_
  exact follows_do (hu v hv)

theorem follows_execPrstDecl (hname : name ∈ D) (t : TypeName) (init : Expr) (ref : Ref) :
    (execPrstDecl t name init ref).Follows env V (Value.In D) := by
  refine follows_read.bind fun rt ⟨g, hrt⟩ => ?_
  split
  · exact follows_evalFor init fun v hv => ⟨hname, hv⟩
  · next e he =>
    have hvalue : e.value.In D := (hrt.poolFind he).2.2.1
    split
    · exact follows_evalFor init fun v hv => ⟨hname, hv⟩
    · split
      · exact follows_evalFor init fun v hv => ⟨hname, hvalue, by simpa using hv⟩
      · have hnone : ∀ v ∈ (none : Option Value), v.In D := by simp
        exact follows_modify ⟨hname, hvalue, hnone⟩ <| follows_nil

theorem follows_execVarDecl {persistent : Bool} (hname : persistent → name ∈ D) (t : TypeName)
    (init : Expr) (ref : Ref) :
    (execVarDecl t name init persistent ref).Follows env V (Value.In D) := by
  refine follows_read.bind fun rt _ => ?_
  split
  · next h => exact follows_execPrstDecl (hname h.1) t init ref
  · exact follows_evalFor init fun v hv => hv

theorem follows_execAssign (name : Ident) (value : Expr) (ref : Ref) :
    (execAssign name value ref).Follows env V (Value.In D) :=
  follows_read.bind fun _ _ => follows_evalFor value fun _ hv => hv

theorem follows_execIf (cond : Expr) {thn : List Stmt} {els : Option (List Stmt)} (hthn : ∀ x ∈ prstDecls thn, x ∈ D)
    (hels : ∀ b ∈ els, ∀ x ∈ prstDecls b, x ∈ D) : (execIf cond thn els).Follows env V (Value.In D) := by
  refine (follows_expr cond).bind fun v _ => ?_
  split
  · exact follows_block hthn
  · split
    · next b => exact follows_block (hels b rfl)
    · exact follows_nil

theorem follows_whileRound (cond : Expr) (hbody : ∀ x ∈ prstDecls body, x ∈ D) (limit : Option ℕ) :
    (whileRound cond body limit).Follows env V
      (Sum.elim ((origin D).loop .loop) (origin D).res) := by
  unfold whileRound
  split
  · exact follows_pure Value.in_nil
  · refine (follows_expr cond).bind fun v _ => follows_unless Value.in_nil fun rt _ => ?_
    refine (follows_block hbody).bind fun _ _ => follows_unless Value.in_nil fun rt _ => ?_
    exact follows_pure hbody

theorem follows_execWhile (cond : Expr) (hbody : ∀ x ∈ prstDecls body, x ∈ D) :
    (execWhile env cond body).Follows env V (Value.In D) := by
  refine follows_read.bind fun rt _ => ?_
  split
  · next chunk hchunk =>
    have hcode : chunk.In D := by
      split at hchunk
      · exact (Registers.compile_chunk (show (Registers.Source.loop cond body).compile _ = _ from hchunk)).2.in
      · cases hchunk
    exact follows_modify trivial <| Prog.Follows.bind (follows_bracket (b := .vm) hcode fun _ => trivial) fun _ _ =>
      follows_do trivial
  · exact follows_bracket (b := .loop) hbody fun _ => trivial

theorem Runtime.In.forItems {g : Option ℕ} {rt : Runtime} (h : rt.In D g) (source : Value) :
    ∀ v ∈ rt.forItems source, v.In D := by
  unfold Runtime.forItems
  split
  · exact h.arrData _
  · exact h.dynItems _
  · simp

theorem follows_forRound (var : Ident) (ref : Ref) (hbody : ∀ x ∈ prstDecls body, x ∈ D) (source : Value)
    (i : ℕ) : (forRound var ref body source i).Follows env V
      (Sum.elim ((origin D).loop .loop) (origin D).res) := by
  refine follows_read.bind fun rt ⟨g, hrt⟩ => ?_
  split
  · exact follows_pure Value.in_nil
  · next v hv =>
    refine Prog.Follows.bind (follows_update (hrt.forItems source v (List.mem_of_getElem? hv))) fun _ _ =>
      (follows_block hbody).bind fun _ _ => follows_unless Value.in_nil fun rt _ => ?_
    exact follows_pure hbody

theorem follows_execFor (var : Ident) (ref : Ref) (arr : Ident) (arrRef : Ref)
    (hbody : ∀ x ∈ prstDecls body, x ∈ D) :
    (execFor var ref arr arrRef body).Follows env V (Value.In D) := by
  refine follows_read.bind fun rt _ => ?_
  split
  · exact follows_fail _
  · split
    · exact follows_bracket (b := .loop) hbody fun _ => trivial
    · exact follows_bracket (b := .loop) hbody fun _ => trivial
    · exact follows_fail _

theorem follows_evalElements (t : TypeName) (es : List Expr) {data : List Value} (hdata : ∀ v ∈ data, v.In D) :
    (evalElements t es data).Follows env V fun o => ∀ vs ∈ o, ∀ v ∈ vs, v.In D := by
  induction es generalizing data with
  | nil => exact follows_pure (by simpa using hdata)
  | cons e es ih =>
    refine (follows_expr e).bind fun v hv => follows_unless nofun fun rt _ => ?_
    split
    · exact ih (List.forall_mem_append.mpr ⟨hdata, by simpa using hv⟩)
    · exact follows_modify trivial <| follows_pure nofun

theorem in_zeroElem (t : TypeName) : (zeroElem t).In D := by cases t <;> simp [zeroElem]

theorem follows_execArrDecl (t : TypeName) (size : ℕ) (init : ArrInit) {persistent : Bool}
    (hname : persistent → name ∈ D) :
    (execArrDecl t name size init persistent).Follows env V (Value.In D) := by
  cases init with
  | default e =>
    refine (follows_expr e).bind fun v hv => follows_unless (by simp) fun rt ⟨g, hrt⟩ => ?_
    split
    · dsimp only
      split
      · exact follows_fail _
      · refine follows_do ?_
        refine List.forall_mem_append.mpr ⟨hrt.arrData _, fun w hw => ?_⟩
        rw [List.eq_of_mem_replicate hw]
        exact in_zeroElem t
    · split
      · exact follows_fail _
      · refine follows_do ?_
        exact fun w hw => List.eq_of_mem_replicate hw ▸ hv
  | elements es =>
    refine (follows_evalElements t _ (List.forall_mem_nil _)).bind fun o ho => ?_
    split
    · exact follows_nil
    · next data =>
      refine follows_read.bind fun rt _ => follows_modify (ho data rfl) <| ?_
      split
      · next h => exact follows_modify (hname h) <| follows_nil
      · exact follows_nil

theorem follows_execDynAssign (d : ℕ) (index value : Expr) :
    (execDynAssign d index value).Follows env V (Value.In D) := by
  refine (follows_expr index).bind fun idx _ => follows_unless (by simp) fun rt _ => ?_
  split
  · split
    · exact follows_fail _
    · exact (follows_expr value).bind fun v hv => follows_do hv
  · exact follows_fail _

theorem follows_execElemStore (name : Ident) (a idx : ℕ) (value : Expr) :
    (execElemStore name a idx value).Follows env V (Value.In D) := by
  refine follows_read.bind fun _ _ => (follows_expr value).bind fun v hv => follows_read.bind fun rt _ => ?_
  split
  · exact follows_nil
  · dsimp only
    split
    · exact follows_fail _
    · exact follows_do hv

theorem follows_execArrStore (name : Ident) (ref : Ref) (index value : Expr) :
    (execArrStore name ref index value).Follows env V (Value.In D) := by
  refine (follows_expr index).bind fun idx _ => follows_unless (by simp) fun rt _ => ?_
  split
  · split
    · exact follows_fail _
    · dsimp only
      split
      · exact follows_execElemStore _ _ _ _
      · exact follows_fail _
  · exact follows_fail _

theorem follows_elemAssign (w : Value) (name : Ident) (ref : Ref) (index value : Expr) : (match w with
    | .dyn d => execDynAssign d index value
    | _ => execArrStore name ref index value).Follows env V (Value.In D) := by
  split
  · exact follows_execDynAssign _ _ _
  · exact follows_execArrStore _ _ _ _

theorem follows_execArrAssign (name : Ident) (ref : Ref) (index value : Expr) :
    (execArrAssign name ref index value).Follows env V (Value.In D) := by
  refine (follows_getVar ref name).bind fun v _ => follows_read.bind fun rt _ => ?_
  change Prog.Follows env V (Value.In D) (if rt.hadError = true then modify Update.clearError >>= fun _ => _ else _)
  split
  · exact follows_modify trivial <| follows_elemAssign .nil name ref index value
  · exact follows_elemAssign v name ref index value

theorem follows_execReturn (value : Option Expr) : (execReturn env value).Follows env V (Value.In D) := by
  cases value with
  | none => exact follows_do Value.in_nil
  | some e =>
    have hordinary : (do
        let v ← invoke (.expr e)
        modify (.setReturn v)
        pure v : RtProg false Value).Follows env V (Value.In D) :=
      (follows_expr e).bind fun v hv => follows_modify hv <| follows_pure hv
    refine follows_read.bind fun rt ⟨g, hrt⟩ => ?_
    dsimp only
    split
    · exact hordinary
    · next fn args htail =>
      have hfn : fn.In D := by
        split at htail
        · split at htail
          · next f hf =>
            split at htail <;> cases htail
            exact Value.in_func.mp (hrt.findFunc hf)
          · cases htail
        · cases htail
      refine (follows_evalArgs args).bind fun vs hvs => follows_read.bind fun rt _ => ?_
      split
      · exact hordinary
      · exact follows_modify ⟨hfn, hvs⟩ <| follows_nil

section Blocks

theorem follows_initMember (i : ℕ) {st : Stmt} (h : ∀ x ∈ methodPrstDecls [st], x ∈ D) :
    (initMember i st).Follows env V fun _ => True := by
  unfold initMember
  split
  · refine (follows_expr _).bind fun v hv => follows_unless trivial fun rt _ => ?_
    exact follows_update hv
  · next body =>
    have hbody : ∀ x ∈ prstDecls body, x ∈ D := by simpa [methodPrstDecls] using h
    exact follows_update hbody
  · next name size init persistent =>
    have hfield {data : List Value} (hdata : ∀ v ∈ data, v.In D) : (do
        let rt ← read
        modify (.allocArr (.ofList data))
        modify (.setField i name (.arr rt.nextArr true)) : RtProg false Unit).Follows env V
          fun _ => True :=
      follows_read.bind fun rt _ => follows_modify hdata <| follows_update (Value.in_arr _ _)
    split
    · refine (follows_expr _).bind fun v hv => follows_read.bind fun rt ⟨g, hrt⟩ => ?_
      split
      · refine hfield (List.forall_mem_append.mpr ⟨fun w hw => ?_, fun w hw => ?_⟩)
        · exact hrt.arrData _ w (List.mem_of_mem_take hw)
        · simp [List.eq_of_mem_replicate hw]
      · exact hfield fun w hw => List.eq_of_mem_replicate hw ▸ hv
    · exact (follows_evalArgs _).bind fun _ hdata => hfield hdata
  · exact follows_pure trivial

theorem methodPrstDecls_cons (st : Stmt) (rest : List Stmt) :
    methodPrstDecls (st :: rest) = methodPrstDecls [st] ++ methodPrstDecls rest := by
  cases st <;> simp [methodPrstDecls]

theorem follows_initMembers (i : ℕ) {members : List Stmt} (h : ∀ x ∈ methodPrstDecls members, x ∈ D) :
    (initMembers i members).Follows env V fun _ => True := by
  induction members with
  | nil => exact follows_pure trivial
  | cons st rest ih =>
    rw [methodPrstDecls_cons] at h
    obtain ⟨hst, hrest⟩ := List.forall_mem_append.mp h
    exact (follows_initMember i hst).bind fun _ _ => ih hrest

theorem Runtime.In.blockMembers {g : Option ℕ} {rt : Runtime} (h : rt.In D g) (defName : Ident) :
    ∀ x ∈ methodPrstDecls (rt.blockMembers defName), x ∈ D := by
  unfold Runtime.blockMembers
  cases hdef : rt.blockDefs.lookup defName with
  | none => simp [methodPrstDecls]
  | some members =>
    obtain ⟨l, r, heq, -⟩ := List.lookup_eq_some_iff.mp hdef
    exact h.blockDefs (defName, members) (by simp [heq])

theorem follows_createInstance (name defName : Ident) (isRoot : Bool) :
    (createInstance name defName isRoot).Follows env V (Value.In D) :=
  follows_read.bind fun _ ⟨_, hrt⟩ => follows_modify trivial <|
    (follows_initMembers _ (hrt.blockMembers defName)).bind fun _ _ => follows_do trivial

theorem follows_execTypeofInst (inst origin' : Ident) : (execTypeofInst inst origin').Follows env V (Value.In D) := by
  refine follows_read.bind fun rt _ => ?_
  dsimp only
  split
  · exact follows_fail _
  · split
    · exact follows_fail _
    · exact follows_createInstance _ _ _

theorem follows_execMemberAssign (owner field : Ident) (value : Expr) :
    (execMemberAssign owner field value).Follows env V (Value.In D) := by
  refine follows_read.bind fun rt _ => ?_
  split
  · exact follows_fail _
  · exact follows_evalFor value fun _ hv => hv

end Blocks

theorem follows_execFree (name : Ident) (ref : Ref) : (execFree name ref).Follows env V (Value.In D) := by
  refine follows_read.bind fun rt _ => ?_
  split
  · exact follows_failHard _
  · exact follows_do trivial

theorem follows_execImportStd (lib : Ident) : (execImportStd env lib).Follows env V (Value.In D) := by
  unfold execImportStd
  split
  · exact follows_nil
  · exact follows_fail _

theorem follows_execStmt {st : Stmt} (h : ∀ x ∈ prstDeclsOf st, x ∈ D) :
    (execStmt env st).Follows env V (Value.In D) := by
  cases st with
  | varDecl t name init persistent ref =>
    exact follows_execVarDecl (fun hp => h name (by simp [prstDeclsOf, hp])) t init ref
  | assign name value ref => exact follows_execAssign name value ref
  | ifStmt cond thn els =>
    change (execIf cond thn els).Follows env V (Value.In D)
    cases els with
    | none => exact follows_execIf cond (by simpa [prstDeclsOf] using h) (by simp)
    | some els =>
      obtain ⟨hthn, hels⟩ := List.forall_mem_append.mp (by simpa only [prstDeclsOf] using h)
      exact follows_execIf cond hthn fun b hb => Option.some.inj hb ▸ hels
  | whileStmt cond body => exact follows_execWhile cond (by simpa [prstDeclsOf] using h)
  | forStmt var ref arr arrRef body => exact follows_execFor var ref arr arrRef (by simpa [prstDeclsOf] using h)
  | arrDecl t name size init persistent =>
    exact follows_execArrDecl t size init fun hp => h name (by simp [prstDeclsOf, hp])
  | arrAssign name ref index value => exact follows_execArrAssign name ref index value
  | funcDecl id name params returnType body =>
    have hbody : ∀ x ∈ prstDecls body, x ∈ D := by simpa [prstDeclsOf] using h
    exact follows_do hbody
  | returnStmt value => exact follows_execReturn value
  | blockDecl name members =>
    have hmembers : ∀ x ∈ methodPrstDecls members, x ∈ D := by simpa [prstDeclsOf] using h
    exact follows_modify hmembers <| follows_createInstance name name true
  | typeofInst inst origin => exact follows_execTypeofInst inst origin
  | memberAssign owner field value => exact follows_execMemberAssign owner field value
  | danger body =>
    have hbody : ∀ x ∈ prstDecls body, x ∈ D := by simpa [prstDeclsOf] using h
    exact follows_bracket (b := .danger) hbody fun _ => trivial
  | free name ref => exact follows_execFree name ref
  | importStd lib => exact follows_execImportStd lib
  | exprStmt call => exact follows_expr call

end Statements

section Vm

variable {args : List Value} {v : Value} {g : Option ℕ} {rt : Runtime}

theorem simpleBinaryOp_ne_func {op : BinOp} {l r : Value} (h : simpleBinaryOp op l r = some v) : v.type ≠ .func := by
  have hlong {i : Option Int64} (h : Value.ofLong? i = some v) : v.type ≠ .func := by simp [Value.type_of_ofLong h]
  have hdouble {f : Binary64.Double → Binary64.Double → Value} (hf : ∀ x y, (f x y).type ≠ .func)
      (h : (l.toDouble.bind fun x => r.toDouble.map fun y => f x y) = some v) : v.type ≠ .func := by
    obtain ⟨x, -, h⟩ := Option.bind_eq_some_iff.mp h
    obtain ⟨y, -, rfl⟩ := Option.map_eq_some_iff.mp h
    exact hf x y
  unfold simpleBinaryOp at h
  split at h
  · cases op <;> dsimp only at h <;> first
      | exact hlong h
      | (split at h <;> first | exact hlong h | (cases h; simp [Value.type]))
      | (cases h; simp [Value.type])
  · split at h
    · cases op <;> dsimp only at h <;> first
        | exact hdouble (by simp [Value.type]) h
        | (cases h; simp [Value.type])
    · cases h
      simp [Value.type]

theorem Runtime.In.evalSimpleExpr (h : rt.In D g) {params : List Value}
    (hp : ∀ v ∈ params, v.In D) (e : Expr) (hv : evalSimpleExpr rt params e = some v) : v.In D := by
  cases e with
  | intLit | floatLit | boolLit | stringLit =>
    cases hv
    simp
  | identifier name ref =>
    rcases ref with ⟨_ | off, warm⟩ <;> cases hv
    · simp
    · exact Value.in_getD hp off
  | memberAccess owner field =>
    cases hv
    cases hfield : (rt.resolveInstance owner).bind (rt.instanceField · field) with
    | none => simp
    | some w =>
      obtain ⟨i, -, hw⟩ := Option.bind_eq_some_iff.mp hfield
      exact h.instanceField hw
  | binary op l r =>
    obtain ⟨x, -, hv⟩ := Option.bind_eq_some_iff.mp hv
    obtain ⟨y, -, hv⟩ := Option.bind_eq_some_iff.mp hv
    exact Value.in_of_plain (simpleBinaryOp_ne_func hv)
  | logic op l r =>
    obtain ⟨x, -, hv⟩ := Option.bind_eq_some_iff.mp hv
    obtain ⟨y, -, hv⟩ := Option.bind_eq_some_iff.mp hv
    cases hv
    simp
  | _ =>
    cases hv
    simp

theorem follows_inlineStmts {params : List Value} (hp : ∀ v ∈ params, v.In D) (body : List Stmt) :
    (inlineStmts params body).Follows env V fun o => ∀ v ∈ o, v.In D := by
  fun_induction inlineStmts params body with
  | case1 => exact follows_pure (by simp)
  | case2 owner field value rest ih =>
    refine follows_read.bind fun rt ⟨g, hrt⟩ => ?_
    split
    · exact follows_pure (by simp)
    · split
      · exact follows_undefined.bind fun _ _ => follows_pure (by simp)
      · next v hv =>
        refine follows_modify (hrt.evalSimpleExpr hp value hv) <| follows_read.bind fun rt _ => ?_
        split
        · exact follows_pure (by simp)
        · exact ih
  | case3 => exact follows_pure (by simp)
  | case4 value rest =>
    refine follows_read.bind fun rt ⟨g, hrt⟩ => ?_
    split
    · exact follows_undefined.bind fun _ _ => follows_pure (by simp)
    · next v hv => exact follows_pure (by simpa using hrt.evalSimpleExpr hp value hv)
  | case5 => exact follows_pure (by simp)

theorem follows_methodTryInline (fn : FuncDecl) (hargs : ∀ v ∈ args, v.In D) :
    (methodTryInline fn args).Follows env V fun o => ∀ v ∈ o, v.In D := by
  unfold methodTryInline
  split
  · exact follows_inlineStmts hargs fn.body
  · exact follows_pure (by simp)

theorem follows_raise {α : Type} (e : RtError) {a : α} {post : α → Prop} (ha : post a) :
    (do modify (.raise e); pure a : RtProg true α).Follows env V post :=
  follows_modify trivial <| follows_pure ha

theorem follows_builtinDispatchValues (name : Ident) (args : List Value) :
    (builtinDispatchValues name args).Follows env V (Value.In D) := by
  have hbad : (do modify (.raiseHard (.vmBuiltin name)); pure Value.nil : RtProg true Value).Follows env V
      (Value.In D) := follows_do trivial
  unfold builtinDispatchValues
  split
  · exact follows_nil
  · split
    · exact follows_read.bind fun rt _ => follows_pure (by simp)
    · exact hbad
  · refine follows_read.bind fun rt _ => ?_
    split
    · exact follows_pure (by simp)
    · exact follows_modify trivial <| follows_pure (by simp)
  · exact follows_readInt
  · exact hbad

theorem follows_vmGetField (owner field : Ident) : (vmGetField owner field).Follows env V (Value.In D) := by
  refine follows_read.bind fun rt ⟨g, hrt⟩ => ?_
  split
  · exact follows_raise _ (by simp)
  · refine follows_pure ?_
    cases hv : rt.instanceField _ field with
    | none => simp
    | some v => exact hrt.instanceField hv

theorem follows_vmSetField (owner field : Ident) (hv : v.In D) :
    (vmSetField owner field v).Follows env V fun _ => True := by
  refine follows_read.bind fun rt _ => ?_
  split
  · exact follows_pure trivial
  · exact follows_update hv

theorem follows_vmIndexPrep (regs : ℕ → Value) (count : ℕ) (name : Ident) (off : Option ℕ) (index : Value) :
    (vmIndexPrep regs count name off index).Follows env V fun _ => True := by
  refine follows_read.bind fun rt _ => ?_
  split
  · exact follows_raise _ trivial
  · split
    · split
      · exact follows_pure trivial
      · exact follows_raise _ trivial
    · exact follows_raise _ trivial

theorem follows_vmIndexGet (regs : ℕ → Value) (count : ℕ) (name : Ident) (off : Option ℕ) (index : Value) :
    (vmIndexGet regs count name off index).Follows env V fun o => ∀ v ∈ o, v.In D := by
  refine (follows_vmIndexPrep regs count name off index).bind fun o _ => ?_
  split
  · exact follows_pure (by simp)
  · refine follows_read.bind fun rt ⟨g, hrt⟩ => ?_
    dsimp only
    split
    · exact follows_pure (by simpa using Value.in_getD (hrt.arrData _) _)
    · exact follows_raise _ (by simp)

theorem follows_vmIndexSet (regs : ℕ → Value) (count : ℕ) (name : Ident) (off : Option ℕ) (index : Value)
    {incoming : Value} (hv : incoming.In D) :
    (vmIndexSet regs count name off index incoming).Follows env V fun _ => True := by
  refine (follows_vmIndexPrep regs count name off index).bind fun o _ => ?_
  split
  · exact follows_pure trivial
  · refine follows_read.bind fun rt _ => ?_
    dsimp only
    split
    · exact follows_raise _ trivial
    · split
      · exact follows_raise _ trivial
      · exact follows_modify hv <| follows_pure trivial

theorem follows_vmEvalFallback {fn : FuncDecl} (hfn : fn.In D) (inst : Option ℕ)
    (hargs : ∀ v ∈ args, v.In D) : (vmEvalFallback fn inst args).Follows env V (Value.In D) :=
  follows_frame (follows_raise _ (by simp)) fun _ _ hframe => ⟨⟨hframe, hfn, hargs⟩, fun _ hr => ⟨rfl, hr⟩⟩

theorem follows_vmCallMethod (henv : env.In D) (owner method : Ident) (isKey : Bool)
    (hargs : ∀ v ∈ args, v.In D) :
    (vmCallMethod env owner method isKey args).Follows env V (Value.In D) := by
  unfold vmCallMethod
  split
  · next call hcall =>
    exact follows_modify trivial <| follows_pure (henv.lib _ _ hcall _ _)
  · refine follows_read.bind fun rt ⟨g, hrt⟩ => ?_
    split
    · exact follows_raise _ (by simp)
    · next i hi =>
      dsimp only
      split
      · exact follows_raise _ (by simp)
      · next fn hfound =>
        have hfn : fn.In D := by
          split at hfound
          · exact hrt.instanceMethod hfound
          · split at hfound <;> cases hfound
            next hfield => exact Value.in_func.mp (hrt.instanceField hfield)
        split
        · exact follows_raise _ (by simp)
        · refine (follows_methodTryInline fn hargs).bind fun o ho => ?_
          split
          · next v => exact follows_pure (ho v rfl)
          · exact follows_vmEvalFallback hfn _ hargs

theorem Runtime.In.vmFunc (h : rt.In D g) {name : Ident} {fn : FuncDecl}
    (hfn : rt.vmFunc name = some fn) : fn.In D := by
  unfold Runtime.vmFunc at hfn
  split at hfn
  · next f hf =>
    cases hfn
    exact Value.in_func.mp (h.of_scope hf)
  · split at hfn
    · next f hf =>
      cases hfn
      exact h.currentMethod hf
    · split at hfn <;> cases hfn
      next hf => exact Value.in_func.mp (h.of_global hf)

theorem Runtime.In.fnChunk (h : rt.In D g) (fn : FuncDecl) : ∀ c ∈ rt.fnChunk fn, c.In D := by
  intro c hc
  unfold Runtime.fnChunk at hc
  split at hc
  · next chunk hchunk =>
    obtain ⟨l, r, heq, -⟩ := List.lookup_eq_some_iff.mp hchunk
    exact h.chunks (fn.id, chunk) (by simp [heq]) c hc
  · exact (Registers.compile_chunk (show (Registers.Source.func fn).compile _ = _ from hc)).2.in

theorem follows_vmRunCallee {rt : Runtime} {g : Option ℕ} (hrt : rt.In D g) {name : Ident} {fn : FuncDecl}
    (hfn : rt.vmFunc name = some fn) (hargs : ∀ v ∈ args, v.In D) : (match rt.fnChunk fn with
      | some chunk => bracket .vmFn (fun _ => rfl) ⟨chunk.code, 0, fun i => args.getD i .nil,
          max (chunk.nextReg + 32) (fn.paramCount + 32)⟩
      | none => vmEvalFallback fn rt.currentInstance args : RtProg true Value).Follows env V (Value.In D) := by
  split
  · next chunk hchunk =>
    exact follows_bracket (b := .vmFn) ⟨hrt.fnChunk fn chunk hchunk, fun k => Value.in_getD hargs k⟩ fun _ => trivial
  · exact follows_vmEvalFallback (hrt.vmFunc hfn) _ hargs

theorem follows_vmCallFunc (name : Ident) (hargs : ∀ v ∈ args, v.In D) :
    (vmCallFunc name args).Follows env V (Value.In D) := by
  unfold vmCallFunc
  split
  · exact follows_builtinDispatchValues name args
  · refine follows_read.bind fun rt hin => ?_
    obtain ⟨g, hrt⟩ := hin
    split
    · exact follows_raise _ (by simp)
    · next fn hfn =>
      split
      · exact follows_raise _ (by simp)
      · dsimp only
        split
        · exact follows_modify (hrt.fnChunk fn) <| follows_vmRunCallee hrt hfn hargs
        · exact follows_vmRunCallee hrt hfn hargs

def VmEffect.In (D : Set Ident) : VmEffect → Prop
  | .write _ v | .writeStop _ v | .ret v => v.In D
  | .next | .jump _ | .stop => True

theorem follows_vmInstr (henv : env.In D) {regs : ℕ → Value} (hregs : ∀ k, (regs k).In D) (count : ℕ) {i : Instr}
    (hi : i.In D) : (vmInstr env regs count i).Follows env V (VmEffect.In D) := by
  have hwindow (first argc : ℕ) : ∀ v ∈ (List.range argc).map fun i => regs (first + i), v.In D := by
    intro v hv
    obtain ⟨k, -, rfl⟩ := List.mem_map.mp hv
    exact hregs _
  cases i with
  | loadk a v =>
    have hv : v.In D := hi
    exact follows_pure hv
  | loadkStr a s => exact follows_pure (Value.in_str s)
  | move a b | moveStr a b => exact follows_pure (hregs b)
  | dropStr a => exact follows_pure Value.in_nil
  | binary op a b c =>
    simp only [vmInstr]
    split
    · next v hv => exact follows_pure (henv.vmOp _ _ _ _ hv)
    · exact follows_undefined.bind fun _ _ => follows_pure trivial
  | not a b | truthy a b => exact follows_pure (Value.in_bool _)
  | jumpIfFalse a target =>
    simp only [vmInstr]
    refine follows_pure ?_
    split <;> trivial
  | jump target => exact follows_pure trivial
  | ret => exact follows_pure trivial
  | callMethod a owner method isKey first argc =>
    exact (follows_vmCallMethod henv _ _ _ (hwindow first argc)).bind fun v hv => follows_pure hv
  | callFunc a name first argc => exact (follows_vmCallFunc _ (hwindow first argc)).bind fun v hv => follows_pure hv
  | getField a owner field => exact (follows_vmGetField owner field).bind fun v hv => follows_pure hv
  | getFieldV a owner field =>
    refine (follows_vmGetField owner field).bind fun v hv => follows_pure ?_
    change (if v.type.isPlain then v else Value.nil).In D
    split
    · exact hv
    · simp
  | setField a owner field => exact (follows_vmSetField _ _ (hregs a)).bind fun _ _ => follows_pure trivial
  | getIndex a name index off =>
    refine (follows_vmIndexGet _ _ _ _ _).bind fun o ho => ?_
    split
    · next v => exact follows_pure (ho v rfl)
    · exact follows_pure Value.in_nil
  | prepIndex off name index target =>
    refine (follows_vmIndexPrep _ _ _ _ _).bind fun o _ => ?_
    split <;> exact follows_pure trivial
  | setIndex a name index off =>
    refine (follows_vmIndexSet _ _ _ _ _ (hregs a)).bind fun o _ => ?_
    split <;> exact follows_pure trivial
  | retVal a => exact follows_pure (hregs a)
  | retNil => exact follows_pure Value.in_nil

theorem follows_vmRun (henv : env.In D) {j : VmState} (hj : (origin D).loop .vm j) :
    (vmRun env j).Follows env V (Sum.elim ((origin D).loop .vm) (origin D).res) := by
  refine follows_read.bind fun rt ⟨g, hrt⟩ => ?_
  split
  · exact follows_pure Value.in_nil
  · next i hi =>
    refine (follows_vmInstr henv hrt.stack _ (hj i (List.mem_of_getElem? hi))).bind fun e he => ?_
    split
    · exact follows_pure hj
    · exact follows_modify he <| follows_pure hj
    · exact follows_pure hj
    · exact follows_pure Value.in_nil
    · exact follows_modify he <| follows_pure Value.in_nil
    · exact follows_modify he <| follows_pure Value.in_nil

theorem follows_vmRunFn (henv : env.In D) {j : FnState} (hj : (origin D).loop .vmFn j) :
    (vmRunFn env j).Follows env V (Sum.elim ((origin D).loop .vmFn) (origin D).res) := by
  obtain ⟨hcode, hregs⟩ := hj
  unfold vmRunFn
  split
  · exact follows_pure Value.in_nil
  · next i hi =>
    refine (follows_vmInstr henv hregs _ (hcode i (List.mem_of_getElem? hi))).bind fun e he => ?_
    split
    · exact follows_pure ⟨hcode, hregs⟩
    · next a v =>
      have hv : v.In D := he
      refine follows_pure ⟨hcode, fun k => ?_⟩
      by_cases hk : k = a
      · simpa [hk] using hv
      · simpa [hk] using hregs k
    · exact follows_pure ⟨hcode, hregs⟩
    · exact follows_pure Value.in_nil
    · exact follows_pure Value.in_nil
    · exact follows_pure he

end Vm

section Machine

theorem follows_step (henv : env.In D) (i : Proc) (h : (origin D).proc i) :
    ((interp env).step i).Follows env V (Value.In D) :=
  match i, h with
  | .expr e, _ => follows_evalExpr henv e
  | .stmt _, h => follows_execStmt h
  | .block _, h => follows_runBlock h

theorem follows_body (henv : env.In D) (b : Bracket) (j : b.State) (h : (origin D).loop b j) :
    ((interp env).body b j).Follows env V (Sum.elim ((origin D).loop b) (origin D).res) :=
  match b, j, h with
  | .loop, .while cond _ limit, h => follows_whileRound cond h limit
  | .loop, .forIn var ref _ source i, h => follows_forRound var ref h source i
  | .danger, _, h => (follows_block h).bind fun _ _ => follows_pure Value.in_nil
  | .call inst, _, h => follows_callRound inst h
  | .fallback inst, _, h => follows_fallbackRound inst h
  | .vm, _, h => follows_vmRun henv h
  | .vmFn, _, h => follows_vmRunFn henv h

theorem follows_runProgram {program : List Stmt} (h : ∀ x ∈ prstDecls program, x ∈ D) :
    (runProgram program).Follows env V fun _ => True := by
  induction program with
  | nil => exact follows_pure trivial
  | cons st rest ih =>
    obtain ⟨hst, hrest⟩ := List.forall_mem_append.mp h
    exact follows_stmt_unless hst trivial (ih hrest)

/-- Nothing but where everything comes from. -/
def originView (D : Set Ident) : View D (Option ℕ) where
  inv g rt := rt.In D g
  frame _ := True
  origin h := h.running.symm ▸ h
  update hu h := Update.in_apply hu h
  switch i h := ⟨i, fun _ hs => { hs with running := rfl }, fun _ hs => { hs with running := h.running }⟩
  frame_of_depth _ _ := trivial

/-- **Code comes from the program.** -/
theorem honours_origin (henv : env.In D) : (interp env).Honours (originView D).contract where
  step i h := follows_step henv i h
  body b j h := follows_body henv b j h
  halt {s r} h := by
    change (if s.hadError then some Value.nil else none) = some r at h
    split at h <;> cases h
    exact Value.in_nil
  note h := h
  exhaust h := h
  bracket b _ _ _ h := ⟨_, b.in_enter h, fun _ ht => Bracket.in_leave h ht⟩

end Machine

section AnyCode

theorem Value.in_univ (v : Value) : v.In Set.univ := fun _ _ _ _ => trivial

theorem Instr.in_univ (i : Instr) : i.In Set.univ := by
  cases i with
  | loadk a v => exact Value.in_univ v
  | _ => trivial

theorem Runtime.in_univ (s : Runtime) : s.In Set.univ s.currentInstance where
  running := rfl
  scope _ _ := Value.in_univ _
  globalTable _ _ := Value.in_univ _
  stack _ := Value.in_univ _
  retValue := Value.in_univ _
  tailCall _ _ := ⟨fun _ _ => trivial, fun _ _ => Value.in_univ _⟩
  pool _ _ := ⟨trivial, Value.in_univ _, Value.in_univ _⟩
  instances _ _ := ⟨fun _ _ => Value.in_univ _, fun _ _ _ _ => trivial⟩
  blockDefs _ _ _ _ := trivial
  arrs _ _ _ _ := Value.in_univ _
  dyns _ _ _ _ := Value.in_univ _
  chunks _ _ _ _ i _ := i.in_univ

theorem Env.in_univ (env : Env) : env.In Set.univ where
  evalOp _ _ _ _ _ := Value.in_univ _
  vmOp _ _ _ _ _ := Value.in_univ _
  lib _ _ _ _ _ := Value.in_univ _
  ffi _ _ _ _ _ := ⟨Value.in_univ _, fun _ _ => Value.in_univ _⟩

end AnyCode

end Fluxa
