import Fluxa.Eval

/-! Where the tree walker looks at `had_error`. Before a write to a variable, a field, an element or the pool it has
found the flag clear, but for a few writes that are made without a look. -/

namespace Fluxa

open Prog (read modify invoke undefined bracket careful_bind)

namespace Update

/-- The writes before which the source looks at `had_error`. -/
def checked : Update → Bool
  | declareVar .. | declarePrst .. | rebuildPrst .. | restorePrst .. | assignVar .. | declareFunc .. | declareArr ..
  | persistArr .. | storeElem .. | adopt .. | setField .. | freeVar .. | registerDef .. | newInstance .. | startBody ..
  | reuseFrame .. | enterVm .. | setReg .. => true
  | _ => false

/-- The updates that are made without a look: the write-back after a compiled loop and after a call of C, the store of
an element of a dyn, and what makes a Block, where `allocArr` begins an array among the members. -/
def unchecked : Update → Bool
  | syncPool | bindVar .. | storeDyn .. | addMethod .. | allocArr .. | registerInstance .. => true
  | _ => false

/-- What the other updates leave alone. The slots of a frame are given up when it ends. -/
structure Spares (u : Update) (rt rt' : Runtime) : Prop where
  slots : (∃ start, u = releaseSlots start) ∨ rt'.stack = rt.stack
  names : rt'.scope = rt.scope ∧ rt'.globalTable = rt.globalTable
  pool : rt'.prstPool = rt.prstPool
  heap : rt'.instances = rt.instances ∧ rt'.arrs = rt.arrs ∧ rt.dyns <+: rt'.dyns

theorem spares_apply {u : Update} (hc : u.checked = false) (hu : u.unchecked = false) (rt : Runtime) :
    u.Spares rt (u.apply rt) := by
  cases u with
  | releaseSlots start => exact ⟨.inl ⟨start, rfl⟩, ⟨rfl, rfl⟩, rfl, rfl, rfl, List.prefix_rfl⟩
  | allocDyn items => exact ⟨.inr rfl, ⟨rfl, rfl⟩, rfl, rfl, rfl, List.prefix_append ..⟩
  | raise e =>
    simp only [apply, Runtime.raise]
    split <;> exact ⟨.inr rfl, ⟨rfl, rfl⟩, rfl, rfl, rfl, List.prefix_rfl⟩
  | libReport r =>
    simp only [apply, Runtime.libReport]
    split <;> exact ⟨.inr rfl, ⟨rfl, rfl⟩, rfl, rfl, rfl, List.prefix_rfl⟩
  | raiseHard | clearError | setReturn | setTailCall | takeReturn | setInstance | cacheChunk | readLine =>
    exact ⟨.inr rfl, ⟨rfl, rfl⟩, rfl, rfl, rfl, List.prefix_rfl⟩
  | _ => simp [checked, unchecked] at hc hu

end Update

section Rules

variable {m : Bool} {α γ : Type} {env : Env} {s : Runtime} {post : α → Runtime → Prop}

/-- From `s` on, checked writes are made with the flag clear, up to an unchecked one after an error. -/
def Minds (env : Env) (p : RtProg m α) (post : α → Runtime → Prop) (s : Runtime) : Prop :=
  p.Careful (interp env) (·.checked = true) (·.unchecked = true) post s

/-- The same from every state. -/
def Mindful (env : Env) (p : RtProg m α) : Prop := ∀ s, Minds env p (fun _ _ => True) s

theorem Mindful.minds {p : RtProg m α} (hp : Mindful env p) (h : ∀ a t, post a t) : Minds env p post s :=
  (hp s).imp fun a t _ => h a t

theorem minds_bind {p : RtProg m γ} {f : γ → RtProg m α}
    (h : Minds env p (fun a t => Minds env (f a) post t) s) : Minds env (p >>= f) post s := (careful_bind ..).mpr h

theorem minds_pure {a : α} (h : post a s) : Minds env (pure a : RtProg m α) post s := h

theorem minds_read {post : Runtime → Runtime → Prop} (h : post s s) : Minds env (read : RtProg m Runtime) post s := h

section Calls

variable {post : Value → Runtime → Prop}

theorem minds_invoke {i : Proc} (h : ∀ v t, post v t) : Minds env (invoke i : RtProg m Value) post s := h

theorem minds_bracket {b : Bracket} {hb : b.inner → m} {j : b.State} (h : ∀ v t, post v t) :
    Minds env (bracket b hb j : RtProg m Value) post s := h

/-- The state after a node. -/
theorem minds_then {i : Proc} {f : Value → Runtime → RtProg m α} {post : α → Runtime → Prop}
    (h : ∀ v rt, Minds env (f v rt) post rt) : Minds env (do let v ← invoke i; f v (← read)) post s := h

theorem Mindful.unless {i : Proc} {P : Runtime → Prop} [DecidablePred P] {a : α} {p : RtProg m α} (hp : Mindful env p) :
    Mindful env (do let _ ← invoke i; if P (← read) then pure a else p) := by
  refine fun _ => minds_then fun _ rt => ?_
  split
  · trivial
  · exact hp rt

theorem minds_undefined (h : ∀ v, post v s) : Minds env (undefined : RtProg m Value) post s := h

theorem minds_fail {e : RtError} (h : ∀ t, post .nil t) : Minds env (fail e) post s := fun _ => ⟨nofun, h _⟩

theorem minds_failHard {e : RtError} (h : ∀ t, post .nil t) : Minds env (failHard e) post s := fun _ => ⟨nofun, h _⟩

end Calls

section Updates

variable {post : Unit → Runtime → Prop} {u : Update}

theorem minds_write (hs : ¬s.hadError = true) (h : post () (u.apply s)) : Minds env (modify u : RtProg m Unit) post s :=
  fun _ => ⟨fun _ => if_neg hs, h⟩

theorem minds_modify (hu : u.checked = false) (h : post () (u.apply s)) : Minds env (modify u : RtProg m Unit) post s :=
  fun _ => ⟨fun hc => absurd (hu.symm.trans hc) nofun, h⟩

end Updates

end Rules

section Lists

variable {env : Env} {s : Runtime}

theorem mindful_evalArgs (args : List Expr) : Mindful env (evalArgs args) := by
  induction args with
  | nil => exact fun _ => trivial
  | cons e es ih => exact fun _ => minds_bind (minds_invoke fun _ _ => minds_bind (ih.minds fun _ _ => trivial))

theorem mindful_evalLibArgs (args : List Expr) : Mindful env (evalLibArgs args) := by
  induction args with
  | nil => exact fun _ => trivial
  | cons e es ih =>
    refine fun _ => minds_then fun _ rt => ?_
    split
    · trivial
    · exact minds_bind (ih.minds fun _ _ => trivial)

theorem mindful_writeBack (args : List Expr) (written : List (ℕ × Value)) : Mindful env (writeBack args written) := by
  induction written with
  | nil => exact fun _ => trivial
  | cons w ws ih =>
    refine fun s => minds_bind ?_
    unfold writeArg
    split
    · exact minds_modify rfl (ih _)
    · exact ih s

theorem mindful_evalDynElements (es : List Expr) (items : List Value) : Mindful env (evalDynElements es items) := by
  induction es generalizing items with
  | nil => exact fun _ => trivial
  | cons e es ih =>
    refine fun _ => minds_then fun _ rt => ?_
    split
    · trivial
    · split
      · exact minds_bind (minds_modify rfl trivial)
      · exact minds_bind (minds_write ‹_› (ih _ _))

/-- There are elements only if there was no error. -/
theorem minds_evalElements (t : TypeName) (es : List Expr) (data : List Value) (h : ¬s.hadError = true) :
    Minds env (evalElements t es data) (fun r rt => r.isSome → ¬rt.hadError = true) s := by
  induction es generalizing data s with
  | nil => exact fun _ => h
  | cons e es ih =>
    refine minds_then fun _ rt => ?_
    split
    · exact nofun
    · next hrt =>
      split
      · exact ih _ hrt
      · exact minds_bind (minds_modify rfl nofun)

theorem mindful_initMembers (i : ℕ) (sts : List Stmt) : Mindful env (initMembers i sts) := by
  induction sts with
  | nil => exact fun _ => trivial
  | cons st sts ih =>
    refine fun s => minds_bind ?_
    cases st with
    | varDecl =>
      refine minds_then fun _ rt => ?_
      split
      · exact ih rt
      · exact minds_write ‹_› (ih _)
    | funcDecl => exact minds_modify rfl (ih _)
    | arrDecl t name size init persistent =>
      -- the field is written only if the array was allocated without an error
      have hstore (data : List Value) (rt : Runtime) : Minds env (do
          let rt ← read
          modify (.allocArr (.ofList data))
          modify (.setField i name (.arr rt.nextArr true)) : RtProg false Unit)
          (fun _ t => Minds env (initMembers i sts) (fun _ _ => True) t) rt :=
        fun h => ⟨nofun, fun _ => ⟨fun _ => h rfl, ih _⟩⟩
      cases init with
      | default e =>
        refine minds_then fun v rt => ?_
        cases v <;> exact hstore _ rt
      | elements es => exact minds_bind ((mindful_evalArgs _).minds hstore)
    | _ => exact ih s

theorem mindful_runBlock (body : List Stmt) : Mindful env (runBlock body) := by
  induction body with
  | nil => exact fun _ => trivial
  | cons st rest ih => exact ih.unless

theorem mindful_runBody (body : List Stmt) : Mindful env (runBody body) := by
  induction body with
  | nil => exact fun _ => trivial
  | cons st rest ih => exact ih.unless

theorem mindful_runProgram (program : List Stmt) : Mindful env (runProgram program) := by
  induction program with
  | nil => exact fun _ => trivial
  | cons st rest ih => exact ih.unless

end Lists

section Machine

variable {env : Env} {s : Runtime}

theorem mindful_evalExpr (e : Expr) : Mindful env (evalExpr env e) := by
  intro s
  cases e <;> simp only [evalExpr, evalIdentifier, getVar, evalBinary, evalLogic, evalNot, evalFuncCall, builtinDispatch,
    builtinLen, builtinInput, builtinStrAlloc, evalPrompt, readInt, callFunction, evalMemberAccess, evalMemberCall,
    evalFfiCall, evalArrAccess, evalErrAccess, evalIndexedMemberAccess, evalIndexedMemberCall, evalIndexedInst, evalDynLit]
  -- no branch has a checked write
  all_goals repeat' first
    | with_reducible first
      | exact True.intro | refine minds_bind ?_ | refine minds_pure ?_ | refine minds_read ?_
      | refine minds_invoke fun _ _ => ?_ | refine minds_fail fun _ => ?_ | refine minds_failHard fun _ => ?_
      | refine minds_undefined fun _ => ?_ | refine (mindful_evalArgs _).minds fun _ _ => ?_
      | refine (mindful_evalLibArgs _).minds fun _ _ => ?_ | refine (mindful_writeBack _ _).minds fun _ _ => ?_
      | refine (mindful_evalDynElements _ _).minds fun _ _ => ?_ | split
    | refine minds_modify rfl ?_
    | refine minds_bracket fun _ _ => ?_

theorem minds_execArrDecl {t : TypeName} {name : Ident} {size : ℕ} {init : ArrInit} {persistent : Bool}
    (h : ¬s.hadError = true) : Minds env (execArrDecl t name size init persistent) (fun _ _ => True) s := by
  cases init with
  | default e =>
    refine minds_then fun v rt => ?_
    split
    · trivial
    · dsimp only
      split <;> split
      all_goals first
        | exact minds_fail fun _ => trivial
        | exact minds_bind (minds_write ‹_› trivial)
  | elements es =>
    refine minds_bind ((minds_evalElements t _ [] h).imp fun r rt hr => ?_)
    cases r with
    | none => trivial
    | some data =>
      have hdeclare : ¬(rt.declareArr name data).hadError = true := by
        unfold Runtime.declareArr
        dsimp only
        split <;> exact hr rfl
      refine minds_bind (minds_read (minds_bind (minds_write (hr rfl) ?_)))
      split
      · exact minds_bind (minds_write hdeclare trivial)
      · trivial

theorem minds_execStmt (st : Stmt) (h : ¬s.hadError = true) : Minds env (execStmt env st) (fun _ _ => True) s := by
  cases st <;> simp only [execStmt, execVarDecl, execPrstDecl, evalFor, execAssign, execIf, execWhile, execFor,
    execArrAssign, getVar, execDynAssign, execArrStore, execElemStore, execReturn, execBlockDecl, execTypeofInst,
    createInstance, execMemberAssign, execFree, execImportStd]
  -- a checked write is made at the start, or in the branch in which the flag was found clear
  all_goals repeat' first
    | with_reducible first
      | exact True.intro | refine minds_bind ?_ | refine minds_pure ?_ | refine minds_read ?_
      | refine minds_invoke fun _ _ => ?_ | refine minds_fail fun _ => ?_ | refine minds_failHard fun _ => ?_
      | refine (mindful_evalArgs _).minds fun _ _ => ?_ | refine (mindful_initMembers _ _).minds fun _ _ => ?_
      | exact minds_execArrDecl h | split
    | refine minds_modify rfl ?_
    | refine minds_write (by assumption) ?_
    | refine minds_bracket fun _ _ => ?_

theorem minds_step (i : Proc) (h : ¬s.hadError = true) : Minds env (step env i) (fun _ _ => True) s := by
  cases i with
  | expr e => exact mindful_evalExpr e s
  | stmt st => exact minds_execStmt st h
  | block body => exact mindful_runBlock body s

theorem mindful_loopRound (j : LoopState) : Mindful env (loopRound j) := by
  intro s
  cases j <;> simp only [loopRound, whileRound, forRound]
  all_goals repeat' first
    | with_reducible first
      | exact True.intro | refine minds_bind ?_ | refine minds_pure ?_ | refine minds_read ?_
      | refine minds_invoke fun _ _ => ?_ | split
    | refine minds_modify rfl ?_

theorem minds_callRound (j : CallState) (h : ¬s.hadError = true) : Minds env (callRound j) (fun _ _ => True) s := by
  refine minds_bind (minds_write h (minds_bind ((mindful_runBody _).minds fun _ rt => minds_bind (minds_read ?_))))
  simp only [copyResult]
  repeat' first
    | with_reducible first
      | exact True.intro | refine minds_bind ?_ | refine minds_pure ?_ | refine minds_read ?_ | split
    | refine minds_modify rfl ?_
    | refine minds_write (by assumption) ?_

theorem minds_round (b : Bracket) (j : b.State) (hb : b.checked = true) (h : ¬s.hadError = true) :
    Minds env (round env b j) (fun _ _ => True) s := by
  cases b with
  | loop => exact mindful_loopRound j s
  | danger => exact minds_bind (minds_invoke fun _ _ => trivial)
  | call => exact minds_callRound j h
  | fallback | vm | vmFn => cases hb

end Machine

end Fluxa
