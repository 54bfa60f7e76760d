import Fluxa.Base.Trace
import Fluxa.CodeOrigin
import Fluxa.Fixed

/-! The arguments of a call: which expressions a call node evaluates before the callee starts, how often,
and who the caller is while it does so. -/

namespace Fluxa

open Machine
open Prog (read modify invoke undefined bracket Act free_pure free_read free_modify free_invoke Free)

section Caller

variable {env : Env}

/-- The same frame depth and the same running instance. -/
structure SameCaller (s t : Runtime) : Prop where
  depth : t.callDepth = s.callDepth
  running : t.currentInstance = s.currentInstance

theorem SameCaller.refl (s : Runtime) : SameCaller s s := ⟨rfl, rfl⟩

theorem SameCaller.trans {s t u : Runtime} (h : SameCaller s t) (h' : SameCaller t u) : SameCaller s u :=
  ⟨h'.depth.trans h.depth, h'.running.trans h.running⟩

theorem sameCaller_of_calls {e : Expr} {s t : Runtime} {v : Value} (h : (interp env).Calls (.expr e) s v t) :
    SameCaller s t where
  depth := (keepsCalm_of_runs ((runs_invoke _ _ _ _).mpr h)).2.2.1
  running := ((honours_origin env.in_univ).calls (i := .expr e) trivial s.in_univ h).1.running

end Caller

/-- A function is entered, left to the trampoline, or called in a library. -/
def StartsCallee : Act Update Bracket.State → Prop
  | .loop (.call _) _ | .update (.libReport _) | .update (.setTailCall _ _) => True
  | _ => False

section Parts

variable {env : Env} {s t : Runtime} {l : List (Proc × Runtime)}

/-- The calls are for these expressions, each in the frame and the instance of `s`. -/
structure Evaluates (s : Runtime) (es : List Expr) (l : List (Proc × Runtime)) : Prop where
  order : l.map (·.1) = es.map Proc.expr
  caller : ∀ p ∈ l, SameCaller s p.2

theorem Evaluates.nil (s : Runtime) : Evaluates s [] [] := ⟨rfl, by simp⟩

theorem Evaluates.cons {e : Expr} {es : List Expr} {u : Runtime} (hu : SameCaller s u) (h : Evaluates u es l) :
    Evaluates s (e :: es) ((.expr e, s) :: l) where
  order := by rw [List.map_cons, List.map_cons, h.order]
  caller := List.forall_mem_cons.mpr ⟨.refl s, fun p hp => hu.trans (h.caller p hp)⟩

theorem Evaluates.append {es es' : List Expr} {l' : List (Proc × Runtime)} (h : Evaluates s es l)
    (h' : Evaluates s es' l') : Evaluates s (es ++ es') (l ++ l') where
  order := by rw [List.map_append, List.map_append, h.order, h'.order]
  caller := List.forall_mem_append.mpr ⟨h.caller, h'.caller⟩

theorem Evaluates.from {u : Runtime} {es : List Expr} (hu : SameCaller s u) (h : Evaluates u es l) :
    Evaluates s es l := ⟨h.order, fun p hp => hu.trans (h.caller p hp)⟩

theorem traced_evalArgs {args : List Expr} {vs : List Value} (h : (evalArgs args).Traced (interp env) s l vs t) :
    Evaluates s args l ∧ SameCaller s t := by
  induction args generalizing s l vs with
  | nil =>
    obtain ⟨rfl, -, rfl⟩ := h
    exact ⟨.nil _, .refl _⟩
  | cons e es ih =>
    obtain ⟨v, u, l', hcall, rfl, h⟩ := h
    have hu := sameCaller_of_calls hcall
    change (evalArgs es >>= fun vs => pure (v :: vs)).Traced _ u l' vs t at h
    obtain ⟨vs', u', l₁, l₂, h₁, h₂, rfl⟩ := Prog.Traced.bind_inv h
    obtain ⟨rfl, -, rfl⟩ := h₂
    obtain ⟨hes, hu'⟩ := ih h₁
    rw [List.append_nil]
    exact ⟨.cons hu hes, hu.trans hu'⟩

theorem traced_evalLibArgs {args : List Expr} {vs : List Value}
    (h : (evalLibArgs args).Traced (interp env) s l (some vs) t) : Evaluates s args l ∧ SameCaller s t := by
  induction args generalizing s l vs with
  | nil =>
    obtain ⟨rfl, -, rfl⟩ := h
    exact ⟨.nil _, .refl _⟩
  | cons e es ih =>
    obtain ⟨v, u, l', hcall, rfl, h⟩ := h
    have hu := sameCaller_of_calls hcall
    change Prog.Traced _ (if u.hadError = true then pure none else _) u l' (some vs) t at h
    split at h
    · obtain ⟨-, h, -⟩ := h
      cases h
    · obtain ⟨o, u', l₁, l₂, h₁, h₂, rfl⟩ := Prog.Traced.bind_inv h
      obtain ⟨rfl, ho, rfl⟩ := h₂
      obtain ⟨vs', rfl, -⟩ := Option.map_eq_some_iff.mp ho.symm
      obtain ⟨hes, hu'⟩ := ih h₁
      rw [List.append_nil]
      exact ⟨.cons hu hes, hu.trans hu'⟩

theorem sameCaller_raise (s : Runtime) (e : RtError) : SameCaller s (s.raise e) := by
  unfold Runtime.raise
  split <;> exact ⟨rfl, rfl⟩

theorem traced_getVar {ref : Ref} {name : Ident} {v : Value} (h : (getVar ref name).Traced (interp env) s l v t) :
    l = [] ∧ SameCaller s t := by
  rw [getVar, Prog.traced_read_bind] at h
  split at h
  · obtain ⟨rfl, -, rfl⟩ := h
    exact ⟨rfl, .refl _⟩
  · obtain ⟨rfl, -, rfl⟩ := h
    exact ⟨rfl, sameCaller_raise _ _⟩

theorem traced_evalIndexedInst {name : Ident} {ref : Ref} {index : Expr} {b : ℕ × ℕ}
    (h : (evalIndexedInst name ref index).Traced (interp env) s l (some b) t) :
    Evaluates s [index] l ∧ SameCaller s t := by
  have hfailed {e : RtError} {u : Runtime} {l : List (Proc × Runtime)}
      (h : (do modify (.raise e); pure none : RtProg false (Option (ℕ × ℕ))).Traced (interp env) u l (some b) t) :
      False := nomatch h.2.1
  obtain ⟨v, u, l₁, l₂, h₁, h₂, rfl⟩ := Prog.Traced.bind_inv (p := getVar ref name) h
  obtain ⟨rfl, hu⟩ := traced_getVar h₁
  rw [List.nil_append]
  change Prog.Traced _ (if u.hadError = true then pure none else _) u l₂ (some b) t at h₂
  split at h₂
  · cases h₂.2.1
  · split at h₂
    · obtain ⟨idx, u', l', hcall, rfl, h₂⟩ := h₂
      have hu' := sameCaller_of_calls hcall
      change Prog.Traced _ (if u'.hadError = true then pure none else _) u' l' (some b) t at h₂
      split at h₂
      · cases h₂.2.1
      · split at h₂
        · dsimp only at h₂
          split at h₂
          · split at h₂
            · obtain ⟨rfl, -, rfl⟩ := h₂
              exact ⟨(Evaluates.cons hu' (.nil _)).from hu, hu.trans hu'⟩
            · exact (hfailed h₂).elim
          · exact (hfailed h₂).elim
        · exact (hfailed h₂).elim
    · exact (hfailed h₂).elim

end Parts

section Free

variable {env : Env}

theorem free_fail (e : RtError) : (fail e).Free StartsCallee :=
  (free_modify (by simp [StartsCallee])).bind fun _ => free_pure _

theorem free_failHard (e : RtError) : (failHard e).Free StartsCallee :=
  (free_modify (by simp [StartsCallee])).bind fun _ => free_pure _

theorem free_getVar (ref : Ref) (name : Ident) : (getVar ref name).Free StartsCallee := by
  refine free_read.bind fun rt => ?_
  split
  · exact free_pure _
  · exact free_fail _

theorem free_evalArgs (args : List Expr) : (evalArgs args).Free StartsCallee := by
  induction args with
  | nil => exact free_pure _
  | cons e es ih => exact (free_invoke _).bind fun _ => ih.bind fun _ => free_pure _

theorem free_evalLibArgs (args : List Expr) : (evalLibArgs args).Free StartsCallee := by
  induction args with
  | nil => exact free_pure _
  | cons e es ih =>
    refine (free_invoke _).bind fun _ => free_read.bind fun rt => ?_
    split
    · exact free_pure _
    · exact ih.bind fun _ => free_pure _

theorem free_writeBack (args : List Expr) (written : List (ℕ × Value)) :
    (writeBack args written).Free StartsCallee := by
  induction written with
  | nil => exact free_pure _
  | cons p rest ih =>
    refine Free.bind (p := writeArg args p.1 p.2) ?_ fun _ => ih
    unfold writeArg
    split
    · exact free_modify id
    · exact free_pure _

theorem free_evalPrompt (args : List Expr) : (evalPrompt args).Free StartsCallee := by
  cases args with
  | nil => exact free_pure _
  | cons e es => exact (free_invoke _).bind fun _ => free_pure _

theorem free_readInt : (readInt : RtProg false Value).Free StartsCallee := by
  refine free_read.bind fun rt => ?_
  split
  · exact free_pure _
  · refine (free_modify (by simp [StartsCallee])).bind fun _ => ?_
    split
    · exact free_pure _
    · exact fun _ => trivial

theorem free_builtinDispatch (name : Ident) (args : List Expr) : (builtinDispatch name args).Free StartsCallee := by
  unfold builtinDispatch
  split
  · exact (free_evalArgs args).bind fun _ => free_pure _
  · unfold builtinLen
    split
    · refine (free_invoke _).bind fun _ => free_read.bind fun rt => ?_
      split
      · exact free_pure _
      · split
        · exact free_pure _
        · exact free_failHard _
    · exact free_failHard _
  · refine (free_evalPrompt args).bind fun _ => free_read.bind fun rt => ?_
    split
    · exact free_pure _
    · exact (free_modify (by simp [StartsCallee])).bind fun _ => free_pure _
  · exact (free_evalPrompt args).bind fun _ => free_readInt
  · unfold builtinStrAlloc
    split
    · refine (free_invoke _).bind fun _ => free_read.bind fun rt => ?_
      split
      · exact free_pure _
      · split
        · split
          · exact free_pure _
          · exact free_failHard _
        · exact free_failHard _
    · exact free_failHard _
  · exact free_pure _

theorem free_evalIndexedInst (name : Ident) (ref : Ref) (index : Expr) :
    (evalIndexedInst name ref index).Free StartsCallee := by
  have hfailed (e : RtError) : (do modify (.raise e); pure none : RtProg false (Option (ℕ × ℕ))).Free StartsCallee :=
    (free_modify (by simp [StartsCallee])).bind fun _ => free_pure _
  refine (free_getVar ref name).bind fun v => free_read.bind fun rt => ?_
  split
  · exact free_pure _
  · split
    · refine (free_invoke _).bind fun idx => free_read.bind fun rt => ?_
      split
      · exact free_pure _
      · split
        · dsimp only
          split
          · split
            · exact free_pure _
            · exact hfailed _
          · exact hfailed _
        · exact hfailed _
    · exact hfailed _

end Free

section Nodes

variable {env : Env} {s t : Runtime} {l l' : List (Proc × Runtime)} {a : Act Update Bracket.State}

variable {args : List Expr} {name : Ident}

/-- `call_function` evaluates its arguments in order, each once, and then enters the frame. -/
theorem reaches_callFunction {fn : FuncDecl} {inst : Option ℕ} (ha : StartsCallee a)
    (h : (callFunction fn args inst).Reaches (interp env) a t l' s l) :
    Evaluates s args l ∧ l' = [] ∧ ∃ j, a = .loop (.call inst) j := by
  change Prog.Reaches _ a t l' (if fluxaMaxDepth ≤ s.callDepth then _ else _) s l at h
  split at h
  · exact ((free_fail _).not_reaches ha h).elim
  · split at h
    · exact ((free_fail _).not_reaches ha h).elim
    · obtain ⟨vs, u, l₁, l₂, h₁, h₂, rfl⟩ := (free_evalArgs args).reaches_bind ha h
      rcases h₂ with ⟨rfl, rfl, rfl, hafter⟩ | ⟨r, u', -, h₂⟩
      · rw [List.append_nil]
        refine ⟨(traced_evalArgs h₁).1, ?_, _, rfl⟩
        rcases hafter with rfl | ⟨r, u', -, hafter⟩
        · rfl
        · exact hafter
      · exact h₂.elim

/-- What a C function has written is stored without another evaluation. -/
theorem makes_writeBack {written : List (ℕ × Value)} (h : (writeBack args written).Makes (interp env) s l) :
    l = [] := by
  induction written generalizing s with
  | nil => exact h
  | cons p rest ih =>
    change (writeArg args p.1 p.2 >>= fun _ => writeBack args rest).Makes (interp env) s l at h
    unfold writeArg at h
    split at h <;> exact ih h

/-- So does a call of a C function, before it is made. -/
theorem reaches_evalFfiCall {call : Ident → List Value → FfiResult} {owner method : Ident} (ha : StartsCallee a)
    (h : (evalFfiCall call owner method args).Reaches (interp env) a t l' s l) : Evaluates s args l ∧ l' = [] := by
  rw [evalFfiCall, Prog.reaches_read_bind] at h
  split at h
  · exact ((free_fail _).not_reaches ha h).elim
  · obtain ⟨vs, u, l₁, l₂, h₁, h₂, rfl⟩ := (free_evalArgs args).reaches_bind ha h
    rw [Prog.reaches_read_bind] at h₂
    split at h₂
    · exact h₂.elim
    · rcases h₂ with ⟨rfl, -, -, hafter⟩ | h₂
      · rw [List.append_nil]
        refine ⟨(traced_evalArgs h₁).1, ?_⟩
        obtain ⟨l₃, l₄, h₃, rfl, hlast⟩ := Prog.Makes.bind_inv (p := writeBack args _) hafter
        rw [makes_writeBack h₃, List.nil_append]
        rcases hlast with rfl | ⟨_, _, hlast⟩
        · rfl
        · exact hlast
      · exact (((free_writeBack args _).bind fun _ => free_pure _).not_reaches ha h₂).elim

/-- What the call nodes evaluate before they call: their arguments, and the index of a dyn's element. A call
in return position is a node of its own. -/
def Proc.callParts : Proc → Option (List Expr)
  | .expr (.funcCall _ args) | .expr (.memberCall _ _ args) | .stmt (.returnStmt (some (.funcCall _ args))) => some args
  | .expr (.indexedMemberCall _ _ index _ args) => some (index :: args)
  | _ => none

/-- Each part is evaluated exactly once, from left to right, by the caller and before the callee starts. -/
def EvaluatesOnce (s : Runtime) (parts : List Expr) (before after : List (Proc × Runtime)) : Prop :=
  Evaluates s parts before ∧ after = []

/-- The library gets the first sixteen arguments, and a Block's method or a C function evaluates those again; an
element's method evaluates its arguments as if it were running already. -/
def ArgsOnce (env : Env) (s : Runtime) (a : Act Update Bracket.State) : Proc → Prop
  | .expr (.memberCall owner _ args) => if (env.lib owner).isSome then args.length ≤ 16 else args = []
  | .expr (.indexedMemberCall _ _ _ _ args) => args = [] ∨ ∃ j, a = .loop (.call s.currentInstance) j
  | _ => True

theorem reaches_evalFuncCall (ha : StartsCallee a)
    (h : (evalFuncCall name args).Reaches (interp env) a t l' s l) : EvaluatesOnce s args l l' := by
  unfold evalFuncCall at h
  split at h
  · exact ((free_builtinDispatch _ _).not_reaches ha h).elim
  · rw [Prog.reaches_read_bind] at h
    split at h
    · exact ((free_fail _).not_reaches ha h).elim
    · obtain ⟨hargs, hafter, -⟩ := reaches_callFunction ha h
      exact ⟨hargs, hafter⟩
    · exact ((free_fail _).not_reaches ha h).elim

theorem reaches_evalMemberCall {owner method : Ident} (ha : StartsCallee a)
    (h : (evalMemberCall env owner method args).Reaches (interp env) a t l' s l) :
    EvaluatesOnce s args l l' ↔ if (env.lib owner).isSome then args.length ≤ 16 else args = [] := by
  obtain ⟨o, u, l₁, l₂, h₁, h₂, rfl⟩ := (free_evalLibArgs (args.take 16)).reaches_bind ha h
  cases o with
  | none => exact h₂.elim
  | some vs =>
    obtain ⟨hfirst, hu⟩ := traced_evalLibArgs h₁
    cases hlib : env.lib owner with
    | some call =>
      simp only [hlib] at h₂
      -- the library's report is the only act that is left
      rcases h₂ with ⟨rfl, -, -, hafter⟩ | h₂
      · rw [List.append_nil, Option.isSome_some, if_pos rfl]
        constructor
        · rintro ⟨hargs, -⟩
          have hlen := congrArg List.length (hargs.order.symm.trans hfirst.order)
          simp only [List.length_map, List.length_take] at hlen
          omega
        · intro hlen
          rw [List.take_of_length_le hlen] at hfirst
          exact ⟨hfirst, hafter⟩
      · exact h₂.elim
    | none =>
      simp only [hlib] at h₂
      rw [Prog.reaches_read_bind] at h₂
      have htwice (h : Evaluates u args l₂ ∧ l' = []) :
          EvaluatesOnce s args (l₁ ++ l₂) l' ↔
            if (none : Option Ident).isSome then args.length ≤ 16 else args = [] := by
        obtain ⟨hagain, hafter⟩ := h
        have hall := hfirst.append (hagain.from hu)
        rw [Option.isSome_none, if_neg (by simp)]
        constructor
        · rintro ⟨hargs, -⟩
          have hlen := congrArg List.length (hargs.order.symm.trans hall.order)
          simp only [List.length_map, List.length_append, List.length_take] at hlen
          exact List.length_eq_zero_iff.mp (by omega)
        · rintro rfl
          exact ⟨hall, hafter⟩
      split at h₂
      · split at h₂
        · exact htwice (reaches_evalFfiCall ha h₂)
        · exact ((free_fail _).not_reaches ha h₂).elim
      · split at h₂
        · exact ((free_fail _).not_reaches ha h₂).elim
        · obtain ⟨hagain, hafter, -⟩ := reaches_callFunction ha h₂
          exact htwice ⟨hagain, hafter⟩

/-- The arguments of an element's method see the element as the running instance. -/
theorem once_of_element {index : Expr} {u : Runtime} {b : ℕ} {j : CallState}
    {l₁ l₂ : List (Proc × Runtime)} (hindex : Evaluates s [index] l₁) (hu : SameCaller s u)
    (hargs : Evaluates { u with currentInstance := some b } args l₂) :
    EvaluatesOnce s (index :: args) (l₁ ++ l₂) ([] ++ []) ↔
      args = [] ∨ ∃ j', (Act.loop (.call (some b)) j : Act Update Bracket.State) = .loop (.call s.currentInstance) j' := by
  constructor
  · rintro ⟨hall, -⟩
    cases l₂ with
    | nil => exact .inl (by simpa using hargs.order.symm)
    | cons p l₂ =>
      have hb := (hargs.caller p List.mem_cons_self).running
      have hs := (hall.caller p (List.mem_append_right _ List.mem_cons_self)).running
      rw [← hs, hb]
      exact .inr ⟨j, rfl⟩
  · intro h
    refine ⟨hindex.append ?_, rfl⟩
    rcases h with rfl | ⟨j', h⟩
    · obtain rfl : l₂ = [] := by simpa using hargs.order
      exact .nil s
    · obtain ⟨hb, -⟩ := Act.loop.inj h
      have hcaller : SameCaller s { u with currentInstance := some b } := ⟨hu.depth, by simpa using hb⟩
      exact hargs.from hcaller

theorem reaches_evalIndexedMemberCall {ref : Ref} {index : Expr} {method : Ident}
    (ha : StartsCallee a)
    (h : (evalIndexedMemberCall name ref index method args).Reaches (interp env) a t l' s l) :
    EvaluatesOnce s (index :: args) l l' ↔ args = [] ∨ ∃ j, a = .loop (.call s.currentInstance) j := by
  obtain ⟨o, u, l₁, l₂, h₁, h₂, rfl⟩ := (free_evalIndexedInst name ref index).reaches_bind ha h
  cases o with
  | none => exact h₂.elim
  | some b =>
    obtain ⟨hindex, hu⟩ := traced_evalIndexedInst h₁
    rw [Prog.reaches_read_bind] at h₂
    split at h₂
    · exact ((free_fail _).not_reaches ha h₂).elim
    · next fn hfn =>
      rcases h₂ with ⟨-, rfl, -⟩ | h₂
      · exact ha.elim
      · change Prog.Reaches _ a t l' (callFunction fn args (some b.1) >>= fun v => do
          modify (.setInstance u.currentInstance)
          pure v) { u with currentInstance := some b.1 } l₂ at h₂
        rcases h₂.bind_inv with ⟨l₃, l₄, h₃, rfl, hafter⟩ | ⟨v, u', l₃, l₄, -, h₃, -⟩
        · obtain ⟨hargs, rfl, j, rfl⟩ := reaches_callFunction ha h₃
          obtain rfl : l₄ = [] := by
            rcases hafter with rfl | ⟨_, _, hafter⟩
            · rfl
            · exact hafter
          exact once_of_element hindex hu hargs
        · rcases h₃ with ⟨-, rfl, -⟩ | h₃
          · exact ha.elim
          · exact h₃.elim

theorem reaches_execReturn (ha : StartsCallee a)
    (h : (execReturn env (some (.funcCall name args))).Reaches (interp env) a t l' s l) :
    EvaluatesOnce s args l l' := by
  have hordinary : (do
      let v ← invoke (.expr (.funcCall name args))
      modify (.setReturn v)
      pure v : RtProg false Value).Free StartsCallee :=
    (free_invoke _).bind fun _ => (free_modify id).bind fun _ => free_pure _
  rw [execReturn, Prog.reaches_read_bind] at h
  dsimp only at h
  split at h
  · exact (hordinary.not_reaches ha h).elim
  · next fn args' htail =>
    obtain rfl : args = args' := by
      split at htail
      · split at htail <;> cases htail
        rfl
      · cases htail
    obtain ⟨vs, u, l₁, l₂, h₁, h₂, rfl⟩ := (free_evalArgs args).reaches_bind ha h
    change Prog.Reaches _ a t l' (if u.hadError = true then _ else _) u l₂ at h₂
    split at h₂
    · exact (hordinary.not_reaches ha h₂).elim
    · rcases h₂ with ⟨rfl, -, -, hafter⟩ | h₂
      · rw [List.append_nil]
        exact ⟨(traced_evalArgs h₁).1, hafter⟩
      · exact h₂.elim

/-- `fn f(int x) int { return x }`. -/
def identityFn : FuncDecl :=
  ⟨0, "f", [("x", ⟨.int, false⟩)], .int, [.returnStmt (some (.identifier "x" ⟨some 0, true⟩))]⟩

/-- The function is a function of the program and a method of the Block `C`. -/
def identityState : Runtime :=
  { Runtime.start .script [] with
    scope := [("f", .func identityFn)]
    instances := [⟨"C", "C", true, [], [("f", identityFn)]⟩]
    instanceNames := [("C", 0)] }

theorem calls_intLit (env : Env) {s : Runtime} (hs : s.hadError = false) (i : Int64) :
    (interp env).Calls (.expr (.intLit i)) s (.int i) s :=
  (calls_ok hs).mpr ((runs_pure _ _ _ _).mpr ⟨rfl, rfl⟩)

/-- `Block Counter { int n = 0  fn next() int { n = n + 1  return n } }`, then the Block `C` with the method
`f` and `int r = C.f(Counter.next())`. -/
def countedCall : List Stmt :=
  [.blockDecl "Counter" [.varDecl .int "n" (.intLit 0) false ⟨some 0, false⟩, .funcDecl 1 "next" [] .int
      [.assign "n" (.binary .add (.identifier "n" {}) (.intLit 1)) {}, .returnStmt (some (.identifier "n" {}))]],
    .blockDecl "C" [.funcDecl 0 "f" identityFn.params .int identityFn.body],
    .varDecl .int "r" (.memberCall "C" "f" [.memberCall "Counter" "next" []]) false ⟨some 2, false⟩]

end Nodes

end Fluxa
