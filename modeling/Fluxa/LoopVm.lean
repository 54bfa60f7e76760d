import Mathlib.Logic.Relation
import Fluxa.BigStep
import Fluxa.LoopCode

/-! The VM runs the code of a loop as the loop means it, up to the point where the tiers part. -/

namespace Fluxa.Loop

open Machine State Fluxa.Runtime

section Steps

variable {env : Env} {code : List Instr} {rt rt' t : Runtime} {pc pc' : ℕ} {v : Value}

/-- A round of `vm_run` that goes on. -/
def VmStep (env : Env) (code : List Instr) (a b : ℕ × Runtime) : Prop :=
  (interp env).Runs (vmRun env ⟨code, a.1⟩) a.2 (.inl ⟨code, b.1⟩) b.2

abbrev VmSteps (env : Env) (code : List Instr) : ℕ × Runtime → ℕ × Runtime → Prop :=
  Relation.ReflTransGen (VmStep env code)

theorem iterates_vm {j : VmState} : (interp env).Iterates .vm j rt v t ↔
    (∃ (j' : VmState) (u : Runtime), (interp env).Runs (vmRun env j) rt (.inl j') u ∧
      (interp env).Iterates .vm j' u v t) ∨ (interp env).Runs (vmRun env j) rt (.inr v) t :=
  iterates_iff rfl

theorem VmSteps.iterates {a b : ℕ × Runtime} (h : VmSteps env code a b)
    (hb : (interp env).Iterates .vm (VmState.mk code b.1) b.2 v t) :
    (interp env).Iterates .vm (VmState.mk code a.1) a.2 v t := by
  induction h using Relation.ReflTransGen.head_induction_on with
  | refl => exact hb
  | head hstep _ ih => exact iterates_vm.mpr (.inl ⟨_, _, hstep, ih⟩)

variable {i : Instr} (hi : code[pc]? = some i)

include hi

theorem vmStep_write {a : ℕ} (h : (interp env).Runs (vmInstr env rt.stack rt.stackSize i) rt (.write a v) rt') :
    VmStep env code (pc, rt) (pc + 1, rt'.setReg a v) := by
  simp only [VmStep, vmRun, runs_read_bind, hi, runs_bind (vmInstr _ _ _ _)]
  exact ⟨_, _, h, by simp [Update.apply]⟩

theorem vmStep_next (h : (interp env).Runs (vmInstr env rt.stack rt.stackSize i) rt .next rt') :
    VmStep env code (pc, rt) (pc + 1, rt') := by
  simp only [VmStep, vmRun, runs_read_bind, hi, runs_bind (vmInstr _ _ _ _)]
  exact ⟨_, _, h, by simp⟩

theorem vmStep_jump {target : ℕ}
    (h : (interp env).Runs (vmInstr env rt.stack rt.stackSize i) rt (.jump target) rt') :
    VmStep env code (pc, rt) (target, rt') := by
  simp only [VmStep, vmRun, runs_read_bind, hi, runs_bind (vmInstr _ _ _ _)]
  exact ⟨_, _, h, by simp⟩

end Steps

section Positions

variable {code A B : List Instr} {pc : ℕ} {i : Instr}

/-- `A` stands in the code at position `pc`. -/
def At (code : List Instr) (pc : ℕ) (A : List Instr) : Prop := ∀ j i, A[j]? = some i → code[pc + j]? = some i

theorem At.left (h : At code pc (A ++ B)) : At code pc A := fun j i hj =>
  h j i (by rw [List.getElem?_append_left (List.getElem?_eq_some_iff.mp hj).1, hj])

theorem At.right (h : At code pc (A ++ B)) : At code (pc + A.length) B := fun j i hj => by
  rw [Nat.add_assoc]
  exact h _ i (by rw [List.getElem?_append_right (by omega), Nat.add_sub_cancel_left, hj])

theorem At.head (h : At code pc (i :: A)) : code[pc]? = some i := h 0 i rfl

theorem At.cast {pc' : ℕ} (h : At code pc A) (e : pc = pc') : At code pc' A := e ▸ h

theorem At.tail (h : At code pc (i :: A)) : At code (pc + 1) A := At.right (A := [i]) h

theorem At.assoc {D : List Instr} (h : At code pc (A ++ B ++ D)) : At code pc (A ++ (B ++ D)) :=
  List.append_assoc A B D ▸ h

/-- What stands behind a test. -/
theorem At.behind {D : List Instr} (h : At code pc (A ++ [i] ++ D ++ B)) : At code (pc + A.length + 1 + D.length) B :=
  h.right.cast (by simp; omega)

end Positions

section Expressions

variable {env : Env} {C : Ctx} {st : State} {code : List Instr}

/-- The operators mean to the VM what the loop takes them to mean. -/
def Ctx.Executes (C : Ctx) (env : Env) : Prop := ∀ op x y v, C.op op x y = .ok v → env.vmOp op x y = some v

/-- The VM's registers below the temporaries are the slots of the loop. -/
def Holds (st : State) (rt : Runtime) : Prop := ∀ k < firstTemp, rt.stack k = st.slots k

theorem Holds.temps {rt : Runtime} (h : Holds st rt) {stk : ℕ → Value} (hstk : ∀ k < firstTemp, stk k = rt.stack k) :
    Holds st { rt with stack := stk } := fun k hk => (hstk k hk).trans (h k hk)

theorem Holds.write {rt : Runtime} (h : Holds st rt) (off : ℕ) (v : Value) :
    Holds (st.write off v) (rt.setReg off v) := by
  intro k hk
  simp only [setReg, State.write, Function.update_apply]
  rw [h k hk]

theorem ExprCode.regs {e : Expr} {pc nr r n : ℕ} {A : List Instr} (h : ExprCode e pc nr A r n)
    (he : InExpr e) (hnr : firstTemp ≤ nr) : nr ≤ n ∧ r < n := by
  induction h with
  | intLit | floatLit | boolLit | stringLit => omega
  | slot x off warm =>
    obtain ⟨-, -, o, ho, heq⟩ := he
    obtain rfl := Option.some.inj heq
    omega
  | not _ ih =>
    have := ih he hnr
    omega
  | binary _ _ ihe ihf | and _ _ ihe ihf | or _ _ ihe ihf =>
    have := ihe he.1 hnr
    have := ihf he.2 (by omega)
    omega

/-- The VM behind the code of an expression: the value is in its register, and the registers that were
in use are as before. -/
def Computes (env : Env) (code : List Instr) (pc : ℕ) (rt : Runtime) (nr r pc' : ℕ) (v : Value) : Prop :=
  ∃ stk, VmSteps env code (pc, rt) (pc', { rt with stack := stk }) ∧ (∀ k < nr, stk k = rt.stack k) ∧ stk r = v

section Computes

variable {pc pc₁ pc₂ nr nr' r r' : ℕ} {rt : Runtime} {v w : Value}

theorem Computes.mono (h : Computes env code pc rt nr' r pc₁ v) (hnr : nr ≤ nr') :
    Computes env code pc rt nr r pc₁ v := by
  obtain ⟨stk, hsteps, hframe, hw⟩ := h
  exact ⟨stk, hsteps, fun i hi => hframe i (hi.trans_le hnr), hw⟩

/-- What comes next may use the registers from `nr` on, in particular those that were kept so far. -/
theorem Computes.seq (h : Computes env code pc rt nr' r pc₁ v) (hnr : nr ≤ nr')
    (hk : ∀ stk, (∀ i < nr', stk i = rt.stack i) → stk r = v →
      Computes env code pc₁ { rt with stack := stk } nr r' pc₂ w) : Computes env code pc rt nr r' pc₂ w := by
  obtain ⟨stk, hsteps, hframe, hv⟩ := h
  obtain ⟨stk', hsteps', hframe', hw⟩ := hk stk hframe hv
  exact ⟨stk', hsteps.trans hsteps', fun i hi => (hframe' i hi).trans (hframe i (hi.trans_le hnr)), hw⟩

theorem Computes.jump (h : VmStep env code (pc, rt) (pc₁, rt)) (hk : Computes env code pc₁ rt nr r pc₂ w) :
    Computes env code pc rt nr r pc₂ w := by
  obtain ⟨stk, hsteps, hrest⟩ := hk
  exact ⟨stk, .head h hsteps, hrest⟩

theorem computes_write {i : Instr} {v : Value} (hi : code[pc]? = some i)
    (hrun : (interp env).Runs (vmInstr env rt.stack rt.stackSize i) rt (.write r v) rt) (hr : nr ≤ r) :
    Computes env code pc rt nr r (pc + 1) v := by
  refine ⟨_, .single (vmStep_write hi hrun), fun k hk => ?_, ?_⟩
  · simp only [Function.update_apply]
    rw [if_neg (by omega)]
  · simp

/-- The left operand of a logical operator, and behind it the value so far in both registers of the operator. -/
theorem computes_logic {n : ℕ} {x : Value} {A : List Instr} (hleft : Computes env code pc rt nr r pc₁ x)
    (hrt : Holds st rt) (hnr : firstTemp ≤ nr) (hn : nr ≤ n)
    (hat : At code pc₁ (.truthy n r :: .move (n + 1) n :: A))
    (hk : ∀ stk, Holds st { rt with stack := stk } → stk n = .bool x.truthyLogic →
      stk (n + 1) = .bool x.truthyLogic → Computes env code (pc₁ + 2) { rt with stack := stk } n r' pc₂ w) :
    Computes env code pc rt nr r' pc₂ w := by
  refine hleft.seq le_rfl fun stk hstk hx => ?_
  have hfirst : Computes env code pc₁ { rt with stack := stk } n n (pc₁ + 1) (.bool x.truthyLogic) :=
    computes_write hat.head (by simp [vmInstr, hx]) le_rfl
  refine hfirst.seq hn fun stk' hstk' hb => ?_
  have hsecond : Computes env code (pc₁ + 1) { rt with stack := stk' } (n + 1) (n + 1) (pc₁ + 2)
      (.bool x.truthyLogic) := computes_write hat.tail.head (by simp [vmInstr, hb]) le_rfl
  refine hsecond.seq (hn.trans n.le_succ) fun stk'' hstk'' hb' => ?_
  have hrt' : Holds st { rt with stack := stk'' } := hrt.temps fun k hk =>
    (hstk'' k (by omega)).trans ((hstk' k (by omega)).trans (hstk k (by omega)))
  exact (hk stk'' hrt' ((hstk'' n n.lt_succ_self).trans hb) hb').mono hn

end Computes

/-- **The VM computes an expression as the loop means it.** -/
theorem ExprCode.computes (hC : C.Executes env) {e : Expr} {pc nr r n : ℕ} {A : List Instr}
    (h : ExprCode e pc nr A r n) (he : InExpr e) (hnr : firstTemp ≤ nr) (hat : At code pc A) {rt : Runtime}
    (hrt : Holds st rt) {v : Value} (hv : eval C st e = .ok v) : Computes env code pc rt nr r (pc + A.length) v := by
  induction h generalizing rt v with
  | intLit x pc nr | floatLit x pc nr | boolLit x pc nr | stringLit x pc nr =>
    obtain rfl := Except.ok.inj hv
    exact computes_write hat.head (by simp [vmInstr]) le_rfl
  | slot x off warm pc nr =>
    obtain ⟨-, -, o, ho, heq⟩ := he
    obtain rfl := Option.some.inj heq
    refine ⟨rt.stack, .refl, fun _ _ => rfl, (hrt _ ho).trans ?_⟩
    simp only [eval, State.read] at hv
    split at hv
    · exact nomatch hv
    split at hv
    · exact Except.ok.inj hv
    · exact nomatch hv
  | @not e pc nr r n A hA ih =>
    obtain ⟨x, hx, hv⟩ := Except.bind_eq_ok.mp hv
    obtain rfl := Except.ok.inj hv
    obtain ⟨hn, -⟩ := hA.regs he hnr
    rw [List.length_append, List.length_singleton, ← Nat.add_assoc]
    refine (ih he hnr hat.left hrt hx).seq le_rfl fun stk _ hx => ?_
    exact computes_write hat.right.head (by simp [vmInstr, hx]) hn
  | @binary op e f pc nr r r' n n' A B hA hB ihe ihf =>
    obtain ⟨x, hx, hv⟩ := Except.bind_eq_ok.mp hv
    obtain ⟨y, hy, hv⟩ := Except.bind_eq_ok.mp hv
    obtain ⟨hn, hr⟩ := hA.regs he.1 hnr
    obtain ⟨hn', -⟩ := hB.regs he.2 (hnr.trans hn)
    have hi := hat.right.head
    simp only [List.length_append, List.length_singleton, ← Nat.add_assoc] at hi ⊢
    refine (ihe he.1 hnr hat.left.left hrt hx).seq le_rfl fun stk hstk hx => ?_
    have hrt' := hrt.temps fun k hk => hstk k (hk.trans_le hnr)
    refine (ihf he.2 (hnr.trans hn) hat.left.right hrt' hy).seq hn fun stk' hstk' hy => ?_
    have hx : stk' r = x := (hstk' r hr).trans hx
    exact computes_write hi (by simp [vmInstr, hx, hy, hC op x y v hv]) (hn.trans hn')
  | @and e f pc nr r r' n n' A B hA hB ihe ihf =>
    obtain ⟨x, hx, hv⟩ := Except.bind_eq_ok.mp hv
    obtain ⟨hn, hr⟩ := hA.regs he.1 hnr
    have hhead := hat.left.left.right
    have hB' : At code (pc + A.length + 3) B := hat.left.right.cast (by simp; omega)
    have hlast : At code (pc + A.length + 3 + B.length) _ := hat.right.cast (by simp; omega)
    rw [show pc + _ = pc + A.length + 3 + B.length + 1 by simp; omega]
    have hleft := ihe he.1 hnr hat.left.left.left hrt hx
    refine computes_logic hleft hrt hnr hn hhead fun stk hrt' hb hb' => ?_
    cases hx : x.truthyLogic with
    | false =>
      rw [hx] at hb hb' hv
      obtain rfl := Except.ok.inj hv
      refine .jump (vmStep_jump hhead.tail.tail.head (by simp [vmInstr, hb, Value.vmTruthy]; rfl)) ?_
      exact ⟨stk, .refl, fun _ _ => rfl, hb'⟩
    | true =>
      rw [hx] at hb hv
      obtain ⟨y, hy, hv⟩ := Except.bind_eq_ok.mp hv
      obtain rfl := Except.ok.inj hv
      refine .jump (vmStep_next hhead.tail.tail.head (by simp [vmInstr, hb, Value.vmTruthy])) ?_
      refine (ihf he.2 (by omega) hB' hrt' hy).seq (by omega : n ≤ n + 2) fun stk' _ hy => ?_
      exact computes_write hlast.head (by simp [vmInstr, hy]) n.le_succ
  | @or e f pc nr r r' n n' A B hA hB ihe ihf =>
    obtain ⟨x, hx, hv⟩ := Except.bind_eq_ok.mp hv
    obtain ⟨hn, hr⟩ := hA.regs he.1 hnr
    have hhead := hat.left.left.right
    have hB' : At code (pc + A.length + 4) B := hat.left.right.cast (by simp; omega)
    have hlast : At code (pc + A.length + 4 + B.length) _ := hat.right.cast (by simp; omega)
    rw [show pc + _ = pc + A.length + 4 + B.length + 1 by simp; omega]
    have hleft := ihe he.1 hnr hat.left.left.left hrt hx
    refine computes_logic hleft hrt hnr hn hhead fun stk hrt' hb hb' => ?_
    cases hx : x.truthyLogic with
    | true =>
      rw [hx] at hb hb' hv
      obtain rfl := Except.ok.inj hv
      refine .jump (vmStep_next hhead.tail.tail.head (by simp [vmInstr, hb, Value.vmTruthy])) ?_
      refine .jump (vmStep_jump hhead.tail.tail.tail.head (by simp [vmInstr]; rfl)) ?_
      exact ⟨stk, .refl, fun _ _ => rfl, hb'⟩
    | false =>
      rw [hx] at hb hv
      obtain ⟨y, hy, hv⟩ := Except.bind_eq_ok.mp hv
      obtain rfl := Except.ok.inj hv
      refine .jump (vmStep_jump hhead.tail.tail.head (by simp [vmInstr, hb, Value.vmTruthy]; rfl)) ?_
      refine (ihf he.2 (by omega) hB' hrt' hy).seq (by omega : n ≤ n + 2) fun stk' _ hy => ?_
      exact computes_write hlast.head (by simp [vmInstr, hy]) n.le_succ

end Expressions

section Statements

variable {env : Env} {C : Ctx} {code : List Instr}

/-- The VM behind the code of a statement or a block. -/
def Completes (env : Env) (code : List Instr) (pc : ℕ) (rt : Runtime) (pc' : ℕ) (st : State) : Prop :=
  ∃ rt', VmSteps env code (pc, rt) (pc', rt') ∧ Holds st rt'

section Parts

variable {pc pc₁ pc₂ nr r : ℕ} {rt rt₁ : Runtime} {st st' : State}

theorem Completes.after (h : VmSteps env code (pc, rt) (pc₁, rt₁)) (hk : Completes env code pc₁ rt₁ pc₂ st) :
    Completes env code pc rt pc₂ st := by
  obtain ⟨rt', hsteps, hrt'⟩ := hk
  exact ⟨rt', h.trans hsteps, hrt'⟩

theorem Completes.jump (h : code[pc]? = some (.jump pc₁)) (hk : Completes env code pc₁ rt pc₂ st) :
    Completes env code pc rt pc₂ st :=
  .after (.single (vmStep_jump h ((runs_pure ..).mpr ⟨rfl, rfl⟩))) hk

theorem Completes.to (h : Completes env code pc rt pc₁ st) (e : pc₁ = pc₂) : Completes env code pc rt pc₂ st := e ▸ h

theorem Completes.seq (h : Completes env code pc rt pc₁ st)
    (hk : ∀ rt', Holds st rt' → Completes env code pc₁ rt' pc₂ st') : Completes env code pc rt pc₂ st' := by
  obtain ⟨rt', hsteps, hrt'⟩ := h
  exact .after hsteps (hk rt' hrt')

theorem Drops.completes {start : ℕ} {D : List Instr} (hD : Drops start D) (hstart : firstTemp ≤ start)
    (hat : At code pc D) (hrt : Holds st rt) : Completes env code pc rt (pc + D.length) st := by
  induction D generalizing pc rt with
  | nil => exact ⟨rt, .refl, hrt⟩
  | cons i D ih =>
    obtain ⟨r, hr, rfl⟩ := hD i (by simp)
    have hstep : VmStep env code (pc, rt) (pc + 1, rt.setReg r .nil) :=
      vmStep_write hat.head (by simp [vmInstr])
    have hrt' : Holds st (rt.setReg r .nil) := hrt.temps fun k hk => by
      rw [Function.update_apply, if_neg (by omega)]
    rw [List.length_cons, Nat.add_comm D.length, ← Nat.add_assoc]
    exact .after (.single hstep) (ih (fun i hi => hD i (List.mem_cons_of_mem _ hi)) hat.tail hrt')

variable {start n off : ℕ} {e : Expr} {A D : List Instr} {i : Instr} (hC : C.Executes env)
  (he : ExprCode e pc start A r n) (hin : InExpr e) (hD : Drops start D) (hstart : firstTemp ≤ start)
  (hrt : Holds st rt)

include hC he hin hD hstart hrt

theorem completes_store {v : Value} (hv : eval C st e = .ok v) (hi : IsMove off r i)
    (hat : At code pc (A ++ [i] ++ D)) :
    Completes env code pc rt (pc + (A ++ [i] ++ D).length) (st.write off v) := by
  have hD' : At code (pc + A.length + 1) D := hat.right.cast (by simp; omega)
  rw [show pc + (A ++ [i] ++ D).length = pc + A.length + 1 + D.length by simp; omega]
  obtain ⟨stk, hsteps, hstk, hv⟩ := he.computes hC hin hstart hat.left.left hrt hv
  have hrt' : Holds st { rt with stack := stk } := hrt.temps fun j hj => hstk j (hj.trans_le hstart)
  have hstep : VmStep env code (pc + A.length, { rt with stack := stk })
      (pc + A.length + 1, setReg { rt with stack := stk } off v) := by
    obtain rfl | rfl := hi <;> exact vmStep_write hat.left.right.head (by simp [vmInstr, hv])
  exact .after (hsteps.tail hstep) (hD.completes hstart hD' (hrt'.write off v))

theorem completes_test {target : ℕ} {b : Bool} (hb : test C st e = .ok b)
    (hat : At code pc (A ++ [.jumpIfFalse r target] ++ D)) :
    Completes env code pc rt (if b then pc + A.length + 1 + D.length else target) st := by
  have hD' : At code (pc + A.length + 1) D := hat.right.cast (by simp; omega)
  have hjump := hat.left.right.head
  obtain ⟨v, hv, hb⟩ := Except.bind_eq_ok.mp hb
  obtain ⟨stk, hsteps, hstk, hr⟩ := he.computes hC hin hstart hat.left.left hrt hv
  have hrt' : Holds st { rt with stack := stk } := hrt.temps fun j hj => hstk j (hj.trans_le hstart)
  split at hb
  · next hagree =>
    obtain rfl := Except.ok.inj hb
    cases hb : v.truthy with
    | true =>
      have hstep : VmStep env code (pc + A.length, { rt with stack := stk })
          (pc + A.length + 1, { rt with stack := stk }) := vmStep_next hjump (by simp [vmInstr, hr, ← hagree, hb])
      exact .after (hsteps.tail hstep) (hD.completes hstart hD' hrt')
    | false =>
      have hstep : VmStep env code (pc + A.length, { rt with stack := stk })
          (target, { rt with stack := stk }) := vmStep_jump hjump (by simp [vmInstr, hr, ← hagree, hb])
      exact ⟨_, hsteps.tail hstep, hrt'⟩
  · exact nomatch hb

end Parts

/-- **The VM runs statements and blocks as the loop means them.** -/
theorem Exec.completes (hC : C.Executes env) {p : Proc} {st st' : State} (h : Exec C p st (some st')) {start pc : ℕ}
    {A : List Instr} (hA : StmtCode start p pc A) (hp : InProc p) (hstart : firstTemp ≤ start) (hat : At code pc A)
    {rt : Runtime} (hrt : Holds st rt) : Completes env code pc rt (pc + A.length) st' := by
  generalize hres : some st' = res at h
  induction h generalizing pc A rt st' with
  | effectParts | parts | ifParts | whileParts | roundParts => exact nomatch hres
  | effect h =>
    obtain rfl := Option.some.inj hres
    cases hA with
    | varDecl he hi hD =>
      have h := Option.some.inj h
      split at h
      · exact nomatch h
      obtain ⟨v, hv, h⟩ := Except.bind_eq_ok.mp h
      rw [declare_eq_ok h]
      exact completes_store hC he hp.2 hD hstart hrt hv hi hat
    | assign he hi hD =>
      obtain ⟨v, hv, h⟩ := Except.bind_eq_ok.mp (Option.some.inj h)
      rw [assign_eq_ok h]
      exact completes_store hC he hp.2 hD hstart hrt hv hi hat
    | ifThen | ifElse | «while» => contradiction
  | nil =>
    obtain rfl := Option.some.inj hres
    cases hA
    exact ⟨rt, .refl, hrt⟩
  | @cons s rest st st₁ r first next ihs ihrest =>
    cases hA with
    | @cons _ _ _ A B hA hB =>
    rw [List.length_append, ← Nat.add_assoc]
    exact (ihs hA hp.1 hat.left hrt rfl).seq fun rt' hrt' => ihrest hB hp.2 hat.right hrt' hres
  | @ifThen cond thn els st r h _ ih =>
    cases hA with
    | @ifThen _ _ _ _ _ A D B D' he hD hB hD' =>
      have htest := completes_test hC he hp.1 hD hstart hrt h hat.left.left
      have hbody := hat.assoc.behind
      have hdone := htest.seq fun rt' hrt' =>
        (ih hB hp.2 hbody.left hrt' hres).seq fun rt' => hD'.completes hstart hbody.right
      exact hdone.to (by simp; omega)
    | @ifElse _ _ _ _ _ _ A D B E D' he hD hB hE hD' =>
      have htest := completes_test hC he hp.1 hD hstart hrt h hat.left.left.left.left
      have hbody := hat.assoc.assoc.assoc.behind
      have hdone := htest.seq fun rt' hrt' => (ih hB hp.2.1 hbody.left hrt' hres).seq fun rt' hrt' =>
        .jump hbody.right.head (hD'.completes hstart hbody.right.right.right hrt')
      exact hdone.to (by simp; omega)
  | @ifElse cond thn els st r h _ ih =>
    cases hA with
    | @ifElse _ _ _ _ _ _ A D B E D' he hD hB hE hD' =>
      have htest := completes_test hC he hp.1 hD hstart hrt h hat.left.left.left.left
      have helse := hat.assoc.assoc.assoc.behind.right.right
      have hdone := htest.seq fun rt' hrt' =>
        (ih hE hp.2.2 helse.left hrt' hres).seq fun rt' => hD'.completes hstart helse.right
      exact hdone.to (by simp; omega)
  | @ifNone cond thn st h =>
    obtain rfl := Option.some.inj hres
    cases hA with
    | @ifThen _ _ _ _ _ A D B D' he hD hB hD' =>
      have htest := completes_test hC he hp.1 hD hstart hrt h hat.left.left
      exact (htest.seq fun rt' => hD'.completes hstart hat.assoc.behind.right).to (by simp; omega)
  | whileDone h =>
    obtain rfl := Option.some.inj hres
    cases hA with
    | @«while» _ _ _ _ _ A D B D' he hD hB hD' =>
      have htest := completes_test hC he hp.1 hD hstart hrt h hat.left.left.left
      exact (htest.seq fun rt' => hD'.completes hstart hat.assoc.assoc.behind.right.right).to (by simp; omega)
  | whileMore h _ _ ih ihagain =>
    have hagain := hA
    cases hA with
    | @«while» _ _ _ _ _ A D B D' he hD hB hD' =>
      have htest := completes_test hC he hp.1 hD hstart hrt h hat.left.left.left
      have hbody := hat.assoc.assoc.behind
      refine htest.seq fun rt' hrt' => (ih hB hp.2 hbody.left hrt' rfl).seq fun rt' hrt' => ?_
      exact .jump hbody.right.head (ihagain hagain hp hat hrt' hres)

theorem chunkCompileLoop_runs (hC : C.Executes env) {p : Probe} {cond : Expr} {body : List Stmt}
    (hloop : InStmt (.whileStmt cond body)) {chunk : Chunk} (hchunk : chunkCompileLoop p cond body = some chunk)
    {st st' : State} (h : Exec C (.stmt (.whileStmt cond body)) st (some st')) {rt : Runtime}
    (hrt : firstTemp ≤ chunk.nextReg → Holds st rt) :
    ∃ t, (interp env).Iterates .vm (VmState.mk chunk.code 0) rt .nil t ∧ Holds st' t := by
  obtain ⟨A, hcode, hA, hreg⟩ := chunkCompileLoop_code hloop hchunk
  have hat : At chunk.code 0 (A ++ [.ret]) := fun j i hj => by rw [Nat.zero_add, hcode, hj]
  obtain ⟨t, hsteps, ht⟩ := h.completes hC hA hloop le_rfl hat.left (hrt hreg)
  refine ⟨t, hsteps.iterates (iterates_vm.mpr (.inr ?_)), ht⟩
  simp only [vmRun, runs_read_bind, hat.right.head]
  simp [vmInstr]

end Statements

end Fluxa.Loop
