import Fluxa.CodeOrigin
import Fluxa.Fixed

/-! How deep calls can nest. `call_function` and `vm_eval_fallback` look at `call_depth` before they make a frame, so at
most `FLUXA_MAX_DEPTH` frames of theirs are active. A compiled function body is entered without a look at the depth and
without counting. -/

namespace Fluxa

open Machine Fluxa.Runtime

theorem callDepth_apply (u : Update) (s : Runtime) : (u.apply s).callDepth = s.callDepth :=
  congrArg Fixed.callDepth (u.fixed_apply s)

/-- Nothing but the depth. Frames of the trampolines are made below the maximal one. -/
def depthView : View Set.univ ℕ where
  inv d rt := rt.callDepth = d
  frame d := d < fluxaMaxDepth
  origin _ := in_univ _
  update _ h := (callDepth_apply _ _).trans h
  switch _ _ := ⟨_, fun _ h => h, fun _ h => h⟩
  frame_of_depth h hlt := h ▸ hlt

section Depth

variable {env : Env} {n : ℕ}

/-- Every call of the trampolines fails with a stack overflow, and nothing else happens. -/
def Overflows (env : Env) (rt : Runtime) : Prop := ∀ fn inst,
  (∀ args, (interp env).Runs (callFunction fn args inst) rt .nil (rt.raise .stackOverflow)) ∧
    ∀ args, (interp env).Runs (vmEvalFallback fn inst args) rt .nil (rt.raise .stackOverflow)

theorem overflows_of_depth {rt : Runtime} (h : fluxaMaxDepth ≤ rt.callDepth) : Overflows env rt := by
  intro fn inst
  constructor
  · intro args
    rw [callFunction, runs_read_bind, if_pos h]
    exact ⟨0, rfl⟩
  · intro args
    rw [vmEvalFallback, runs_read_bind, if_pos h]
    exact ⟨0, rfl⟩

/-- What is recorded of a run: the frames that are active, whether a compiled function body was entered, and whether
the frames were bounded all the time. -/
structure Frames where
  active : ℕ := 0
  compiled : Bool := false
  bounded : Prop := True

namespace Frames

/-- At most `FLUXA_MAX_DEPTH` frames are active; when there are as many, a call overflows. -/
def look (env : Env) (w : Frames) (rt : Runtime) : Frames :=
  { w with
    bounded := w.bounded ∧ w.active ≤ fluxaMaxDepth ∧ (w.active = fluxaMaxDepth → Overflows env rt) }

def enter (w : Frames) : Bracket → Frames
  | .call _ | .fallback _ => { w with active := w.active + 1 }
  | .vmFn => { w with active := w.active + 1, compiled := true }
  | _ => w

def leave (s t : Frames) : Frames :=
  { active := s.active, compiled := s.compiled || t.compiled, bounded := s.bounded ∧ t.bounded }

end Frames

def frames (env : Env) : Observer Runtime Update Bracket Frames where
  apply _ rt w := w.look env rt
  note rt w := w.look env rt
  exhaust rt w := w.look env rt
  enter b rt w := (w.look env rt).enter b
  leave _ s t := s.2.leave (t.2.look env t.1)

/-- `runtimeExec`, with the record of its frames. -/
def framesExec (env : Env) (n : ℕ) (program : List Stmt) (stdin : List String) : Option Unit × Runtime × Frames :=
  ((interp env).observe (frames env)).runs n (observed (runProgram program)) (startState program stdin, {})

/-- The depth is bounded, and without compiled function bodies it is the number of frames. -/
structure Counted (s : Runtime × Frames) : Prop where
  depth : s.1.callDepth ≤ fluxaMaxDepth
  active : s.2.compiled = false → s.2.active = s.1.callDepth
  bounded : s.2.compiled = false → s.2.bounded

theorem Counted.look {s : Runtime × Frames} (h : Counted s) : Counted (s.1, s.2.look env s.1) where
  depth := h.depth
  active := h.active
  bounded hc := by
    refine ⟨h.bounded hc, ?_, fun hmax => overflows_of_depth ?_⟩
    · rw [h.active hc]
      exact h.depth
    · rw [← h.active hc, hmax]

theorem Counted.apply {s : Runtime × Frames} (h : Counted s) (u : Update) :
    Counted (u.apply s.1, s.2.look env s.1) where
  depth := (callDepth_apply u s.1).trans_le h.depth
  active hc := (h.active hc).trans (callDepth_apply u s.1).symm
  bounded := h.look.bounded

theorem Counted.enter {s : Runtime × Frames} (h : Counted s) {b : Bracket} (hmay : depthView.may s.1.callDepth b) :
    Counted (b.enter s.1, (s.2.look env s.1).enter b) := by
  have hl : Counted (s.1, s.2.look env s.1) := h.look
  cases b with
  | call inst | fallback inst => exact ⟨hmay, fun hc => congrArg (· + 1) (h.active hc), hl.bounded⟩
  | vmFn => exact ⟨h.depth, nofun, nofun⟩
  | _ => exact ⟨h.depth, h.active, hl.bounded⟩

theorem Counted.leave {s t : Runtime × Frames} (hs : Counted s) (ht : Counted t) {b : Bracket}
    (hdepth : (b.leave s.1 t.1).callDepth = s.1.callDepth) :
    Counted (b.leave s.1 t.1, s.2.leave (t.2.look env t.1)) := by
  have hl : Counted (t.1, t.2.look env t.1) := ht.look
  refine ⟨hdepth.trans_le hs.depth, fun hc => ?_, fun hc => ?_⟩
  · exact (hs.active (Bool.or_eq_false_iff.mp hc).1).trans hdepth.symm
  · obtain ⟨hcs, hct⟩ := Bool.or_eq_false_iff.mp hc
    exact ⟨hs.bounded hcs, hl.bounded hct⟩

theorem obeys_of_follows {m : Bool} {α : Type} {post : α → Prop} {p : RtProg m α} (h : p.Follows env depthView post) :
    (observed p).Obeys ((interp env).observe (frames env)) (depthView.contract.recorded Counted) post :=
  fun g => (h g).observed fun u _ hs => hs.apply u

theorem honours_counted (env : Env) :
    ((interp env).observe (frames env)).Honours (depthView.contract.recorded Counted) where
  step i h := obeys_of_follows (follows_step env.in_univ i h)
  body b j h := obeys_of_follows (follows_body env.in_univ b j h)
  halt _ := Value.in_univ _
  note h := ⟨h.1, h.2.look⟩
  exhaust h := ⟨h.1, h.2.look⟩
  bracket b g s hmay h := by
    obtain ⟨rfl, hs⟩ := h
    refine ⟨_, ⟨rfl, hs.enter hmay⟩, fun t ht => ?_⟩
    have hdepth : (b.leave s.1 t.1).callDepth = s.1.callDepth := by
      cases b with
      | call inst | fallback inst => rfl
      | _ => exact ht.1
    exact ⟨hdepth, hs.leave ht.2 hdepth⟩

/-- **Recursion is bounded** in a run that enters no compiled function body: at most `FLUXA_MAX_DEPTH` frames are active
at every step, and where there are as many, the next call fails with a stack overflow. -/
theorem frames_bounded (env : Env) (n : ℕ) (program : List Stmt) (stdin : List String)
    (h : (framesExec env n program stdin).2.2.compiled = false) : (framesExec env n program stdin).2.2.bounded := by
  have hstart : Counted (startState program stdin, {}) := ⟨Nat.zero_le _, fun _ => rfl, fun _ => trivial⟩
  have hprogram := obeys_of_follows (@follows_runProgram env _ _ depthView program fun _ _ => trivial)
  obtain ⟨depth, -, hrun⟩ := (honours_counted env).known n hprogram ⟨rfl, hstart⟩
  exact hrun.bounded h

/-- `fn two() int { return 2 }`, `fn three() int { return two() + 1 }` and `int r = three()`. -/
def nestedCalls : List Stmt :=
  [.funcDecl 0 "two" [] .int [.returnStmt (some (.intLit 2))],
   .funcDecl 1 "three" [] .int [.returnStmt (some (.binary .add (.funcCall "two" []) (.intLit 1)))],
   .varDecl .int "r" (.funcCall "three" []) false ⟨some 0, false⟩]

theorem nestedCalls_bounded :
    ((framesExec .plain 20 nestedCalls []).2.1.stack 0).int? = some 3 ∧ (framesExec .plain 20 nestedCalls []).2.2.bounded :=
  ⟨by decide +kernel, frames_bounded .plain 20 nestedCalls [] (by decide +kernel)⟩

/-- `fn f() int { return f() }` and `while true { f() }`. -/
def compiledRecursion : List Stmt :=
  [.funcDecl 0 "f" [] .int [.returnStmt (some (.funcCall "f" []))],
   .whileStmt (.boolLit true) [.exprStmt (.funcCall "f" [])]]

/-- More than 500 compiled bodies are active at once, and no error was raised. -/
theorem compiled_bodies_unbounded :
    let r := framesExec .plain 510 compiledRecursion []
    fluxaMaxDepth < r.2.2.active ∧ r.2.1.hadError = false ∧ r.2.1.errStack = [] := by
  decide +kernel

end Depth

end Fluxa
