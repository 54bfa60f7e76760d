import Fluxa.Base.Cutoff

/-! Interpreters as programs. A program reads the state, applies one of the machine's updates, calls a
procedure of the machine, or runs one of its loops inside a bracket that sets up a part of the state
and gives it back afterwards. The procedures and the bodies of the loops are programs again, so that
running them takes fuel.

Two facts are proved once for every machine. The result of a run does not depend on the fuel, which
leaves the big-step relations `Runs`, `Calls` and `Iterates`. And a relation between states that every
update and every bracket respects holds between the two ends of every run, also of a run that was cut
off: the machine's invariants need a look at the updates and the brackets only. -/

/-- `κ b` is the state of the loop in bracket `b`. A bracket with `inner` set can only be used by
programs with `m` set, which are the bodies of the brackets that open that mode. -/
inductive Prog (σ υ ι ρ : Type) {β : Type} (κ : β → Type) (inner : β → Bool) (m : Bool) (α : Type) :
    Type where
  | pure (a : α)
  | get (k : σ → Prog σ υ ι ρ κ inner m α)
  | update (u : υ) (k : Prog σ υ ι ρ κ inner m α)
  | call (i : ι) (k : ρ → Prog σ υ ι ρ κ inner m α)
  | loop (b : β) (h : inner b → m) (j : κ b) (k : ρ → Prog σ υ ι ρ κ inner m α)
  | cut (k : ρ → Prog σ υ ι ρ κ inner m α)

/-- The meaning of the parts. `halt` is the result of a procedure that is called in a state in which
the machine has stopped; `guarded` brackets look at it when they are entered and `checked` ones before
each round. -/
structure Machine (σ υ ι ρ : Type) {β : Type} (κ : β → Type) (inner : β → Bool) where
  apply : υ → σ → σ
  note : σ → σ
  exhaust : σ → σ
  halt : σ → Option ρ
  guarded : β → Bool
  checked : β → Bool
  opens : β → Bool
  enter : β → σ → σ
  leave : β → σ → σ → σ
  step : ι → Prog σ υ ι ρ κ inner false ρ
  body : (b : β) → κ b → Prog σ υ ι ρ κ inner (opens b) (κ b ⊕ ρ)

variable {σ υ ι ρ β : Type} {κ : β → Type} {inner : β → Bool} {m : Bool} {α γ : Type}

namespace Prog

protected def bind (p : Prog σ υ ι ρ κ inner m α) (f : α → Prog σ υ ι ρ κ inner m γ) :
    Prog σ υ ι ρ κ inner m γ :=
  match p with
  | .pure a => f a
  | .get k => .get fun s => (k s).bind f
  | .update u k => .update u (k.bind f)
  | .call i k => .call i fun r => (k r).bind f
  | .loop b h j k => .loop b h j fun r => (k r).bind f
  | .cut k => .cut fun r => (k r).bind f

instance : Monad (Prog σ υ ι ρ κ inner m) where
  pure := .pure
  bind := .bind

/-- Runs a program, given what a call and what a loop does. -/
def run (M : Machine σ υ ι ρ κ inner) (c : ι → Cutoff σ ρ) (l : (b : β) → κ b → Cutoff σ ρ) :
    Prog σ υ ι ρ κ inner m α → Cutoff σ α
  | .pure a, s => (some a, s)
  | .get k, s => (k s).run M c l s
  | .update u k, s => k.run M c l (M.apply u s)
  | .call i k, s =>
    match c i s with
    | (some r, t) => (k r).run M c l t
    | (none, t) => (none, t)
  | .loop b _ j k, s =>
    match if M.guarded b then M.halt s else none with
    | some r => (k r).run M c l s
    | none =>
      match l b j (M.enter b s) with
      | (some r, t) => (k r).run M c l (M.leave b s t)
      | (none, t) => (none, t)
  | .cut k, s =>
    match if m then none else M.halt s with
    | some r => (k r).run M c l s
    | none => (none, M.exhaust s)

section Run

variable {M : Machine σ υ ι ρ κ inner} {c : ι → Cutoff σ ρ} {l : (b : β) → κ b → Cutoff σ ρ}

theorem run_bind (p : Prog σ υ ι ρ κ inner m α) (f : α → Prog σ υ ι ρ κ inner m γ) (s : σ) :
    (p >>= f).run M c l s = (p.run M c l >>= fun a => (f a).run M c l) s := by
  change (p.bind f).run M c l s = _
  induction p generalizing s with
  | pure a => rfl
  | get k ih => exact ih s s
  | update u k ih => exact ih (M.apply u s)
  | call i k ih =>
    simp only [Prog.bind, run, Cutoff.bind_apply]
    rcases c i s with ⟨_ | r, t⟩
    · rfl
    · exact ih r t
  | loop b h j k ih =>
    simp only [Prog.bind, run, Cutoff.bind_apply]
    rcases (if M.guarded b then M.halt s else none) with _ | r
    · rcases l b j (M.enter b s) with ⟨_ | r, t⟩
      · rfl
      · exact ih r _
    · exact ih r s
  | cut k ih =>
    simp only [Prog.bind, run, Cutoff.bind_apply]
    rcases (if m then none else M.halt s) with _ | r
    · rfl
    · exact ih r s

/-- More results of the calls and loops leave the results there were. -/
theorem run_extends {c' : ι → Cutoff σ ρ} {l' : (b : β) → κ b → Cutoff σ ρ}
    (hc : ∀ i, (c i).Extends (c' i)) (hl : ∀ b j, (l b j).Extends (l' b j))
    (p : Prog σ υ ι ρ κ inner m α) : (p.run M c l).Extends (p.run M c' l') := by
  intro s a t h
  induction p generalizing s with
  | pure a => exact h
  | get k ih => exact ih s h
  | update u k ih => exact ih h
  | call i k ih =>
    simp only [run] at h ⊢
    rcases hi : c i s with ⟨_ | r, u⟩ <;> rw [hi] at h
    · simp at h
    · rw [hc i hi]
      exact ih r h
  | loop b hb j k ih =>
    simp only [run] at h ⊢
    rcases hg : (if M.guarded b then M.halt s else none) with _ | r <;> rw [hg] at h
    · rcases hj : l b j (M.enter b s) with ⟨_ | r, u⟩ <;> rw [hj] at h
      · simp at h
      · rw [hl b j hj]
        exact ih r h
    · exact ih r h
  | cut k ih =>
    simp only [run] at h ⊢
    rcases hg : (if m then none else M.halt s) with _ | r <;> rw [hg] at h
    · simp at h
    · exact ih r h

end Run

/-- From `s` on the program makes the updates in `P` only while the machine goes on, whatever its calls and loops lead
to, and ends in `post`. Nothing is asked of it after an update in `U` that it makes when the machine has stopped. -/
def Careful (M : Machine σ υ ι ρ κ inner) (P U : υ → Prop) (post : α → σ → Prop) : Prog σ υ ι ρ κ inner m α → σ → Prop
  | .pure a, s => post a s
  | .get k, s => (k s).Careful M P U post s
  | .update u k, s => (U u → M.halt s = none) → (P u → M.halt s = none) ∧ k.Careful M P U post (M.apply u s)
  | .call _ k, _ => ∀ r t, (k r).Careful M P U post t
  | .loop _ _ _ k, _ => ∀ r t, (k r).Careful M P U post t
  | .cut k, s => ∀ r, (k r).Careful M P U post s

theorem careful_bind {M : Machine σ υ ι ρ κ inner} {P U : υ → Prop} (p : Prog σ υ ι ρ κ inner m α)
    (f : α → Prog σ υ ι ρ κ inner m γ) (post : γ → σ → Prop) (s : σ) :
    (p >>= f).Careful M P U post s ↔ p.Careful M P U (fun a t => (f a).Careful M P U post t) s := by
  change (p.bind f).Careful M P U post s ↔ _
  induction p generalizing s with
  | pure a => rfl
  | get k ih => exact ih s s
  | update u k ih => exact imp_congr_right fun _ => and_congr_right fun _ => ih _
  | call i k ih => exact forall_congr' fun r => forall_congr' fun t => ih r t
  | loop b h j k ih => exact forall_congr' fun r => forall_congr' fun t => ih r t
  | cut k ih => exact forall_congr' fun r => ih r s

theorem Careful.imp {M : Machine σ υ ι ρ κ inner} {P U : υ → Prop} {p : Prog σ υ ι ρ κ inner m α}
    {post post' : α → σ → Prop} {s : σ} (h : p.Careful M P U post s) (himp : ∀ a t, post a t → post' a t) :
    p.Careful M P U post' s := by
  induction p generalizing s with
  | pure a => exact himp a s h
  | get k ih => exact ih s h
  | update u k ih => exact fun hu => ⟨(h hu).1, ih (h hu).2⟩
  | call i k ih => exact fun r t => ih r (h r t)
  | loop b hb j k ih => exact fun r t => ih r (h r t)
  | cut k ih => exact fun r => ih r (h r)

/-! The four ways to use the machine, for `do` blocks. -/

def read : Prog σ υ ι ρ κ inner m σ := .get .pure

def modify (u : υ) : Prog σ υ ι ρ κ inner m Unit := .update u (.pure ())

def invoke (i : ι) : Prog σ υ ι ρ κ inner m ρ := .call i .pure

def bracket (b : β) (h : inner b → m) (j : κ b) : Prog σ υ ι ρ κ inner m ρ := .loop b h j .pure

def undefined : Prog σ υ ι ρ κ inner m ρ := .cut .pure

end Prog

namespace Machine

variable (M : Machine σ υ ι ρ κ inner)

/-- Procedures and loops with a given fuel. -/
def exec : ℕ → (ι → Cutoff σ ρ) × ((b : β) → κ b → Cutoff σ ρ)
  | 0 =>
    (fun _ s => match M.halt s with
      | some r => (some r, s)
      | none => (none, M.exhaust s),
     fun b _ s => match if M.checked b then M.halt s else none with
      | some r => (some r, s)
      | none => (none, M.exhaust s))
  | n + 1 =>
    (fun i s => match M.halt s with
      | some r => (some r, s)
      | none => (M.step i).run M (exec n).1 (exec n).2 (M.note s),
     fun b j s => match if M.checked b then M.halt s else none with
      | some r => (some r, s)
      | none =>
        match (M.body b j).run M (exec n).1 (exec n).2 (M.note s) with
        | (some (.inl j'), t) => (exec n).2 b j' t
        | (some (.inr r), t) => (some r, t)
        | (none, t) => (none, t))

def proc (n : ℕ) : ι → Cutoff σ ρ := (M.exec n).1

def iter (n : ℕ) : (b : β) → κ b → Cutoff σ ρ := (M.exec n).2

/-- A program with the given fuel for its calls and loops. -/
def runs (n : ℕ) (p : Prog σ υ ι ρ κ inner m α) : Cutoff σ α := p.run M (M.proc n) (M.iter n)

section Fuel

theorem proc_zero (i : ι) (s : σ) : M.proc 0 i s = match M.halt s with
    | some r => (some r, s)
    | none => (none, M.exhaust s) := rfl

theorem proc_succ (n : ℕ) (i : ι) (s : σ) : M.proc (n + 1) i s = match M.halt s with
    | some r => (some r, s)
    | none => M.runs n (M.step i) (M.note s) := rfl

theorem iter_zero (b : β) (j : κ b) (s : σ) :
    M.iter 0 b j s = match if M.checked b then M.halt s else none with
    | some r => (some r, s)
    | none => (none, M.exhaust s) := rfl

theorem iter_succ (n : ℕ) (b : β) (j : κ b) (s : σ) :
    M.iter (n + 1) b j s = match if M.checked b then M.halt s else none with
    | some r => (some r, s)
    | none =>
      match M.runs n (M.body b j) (M.note s) with
      | (some (.inl j'), t) => M.iter n b j' t
      | (some (.inr r), t) => (some r, t)
      | (none, t) => (none, t) := rfl

theorem exec_extends (n : ℕ) : (∀ i, (M.proc n i).Extends (M.proc (n + 1) i)) ∧
    ∀ b j, (M.iter n b j).Extends (M.iter (n + 1) b j) := by
  induction n with
  | zero =>
    constructor
    · intro i s a t h
      rw [proc_zero] at h
      rw [proc_succ]
      rcases hs : M.halt s with _ | r <;> rw [hs] at h
      · simp at h
      · exact h
    · intro b j s a t h
      rw [iter_zero] at h
      rw [iter_succ]
      rcases hs : (if M.checked b then M.halt s else none) with _ | r <;> rw [hs] at h
      · simp at h
      · exact h
  | succ n ih =>
    constructor
    · intro i s a t h
      rw [proc_succ] at h ⊢
      rcases hs : M.halt s with _ | r <;> rw [hs] at h
      · exact Prog.run_extends ih.1 ih.2 _ h
      · exact h
    · intro b j s a t h
      rw [iter_succ] at h ⊢
      rcases hs : (if M.checked b then M.halt s else none) with _ | r <;> rw [hs] at h
      · rcases hb : M.runs n (M.body b j) (M.note s) with ⟨_ | (j' | r), u⟩ <;> rw [hb] at h
        · simp at h
        · have hb' : M.runs (n + 1) (M.body b j) (M.note s) = _ := Prog.run_extends ih.1 ih.2 _ hb
          rw [hb']
          exact ih.2 b j' h
        · have hb' : M.runs (n + 1) (M.body b j) (M.note s) = _ := Prog.run_extends ih.1 ih.2 _ hb
          rw [hb']
          exact h
      · exact h

theorem exec_extends_of_le {n k : ℕ} (h : n ≤ k) : (∀ i, (M.proc n i).Extends (M.proc k i)) ∧
    ∀ b j, (M.iter n b j).Extends (M.iter k b j) := by
  induction h with
  | refl => exact ⟨fun i => .refl _, fun b j => .refl _⟩
  | step _ ih =>
    obtain ⟨hp, hi⟩ := M.exec_extends _
    exact ⟨fun i => (ih.1 i).trans (hp i), fun b j => (ih.2 b j).trans (hi b j)⟩

theorem runs_extends_of_le {n k : ℕ} (h : n ≤ k) (p : Prog σ υ ι ρ κ inner m α) : (M.runs n p).Extends (M.runs k p) :=
  Prog.run_extends (M.exec_extends_of_le h).1 (M.exec_extends_of_le h).2 p

end Fuel

/-- The program ends with `a` in state `t`, given enough fuel. -/
def Runs (p : Prog σ υ ι ρ κ inner m α) (s : σ) (a : α) (t : σ) : Prop := ∃ n, M.runs n p s = (some a, t)

def Calls (i : ι) (s : σ) (r : ρ) (t : σ) : Prop := ∃ n, M.proc n i s = (some r, t)

def Iterates (b : β) (j : κ b) (s : σ) (r : ρ) (t : σ) : Prop := ∃ n, M.iter n b j s = (some r, t)

section BigStep

variable {M}

variable {s t : σ} {r : ρ} {i : ι}

theorem Runs.unique {p : Prog σ υ ι ρ κ inner m α} {t' : σ} {a a' : α} (h : M.Runs p s a t)
    (h' : M.Runs p s a' t') : a = a' ∧ t = t' := by
  obtain ⟨n, h⟩ := h
  obtain ⟨k, h'⟩ := h'
  have e := M.runs_extends_of_le (Nat.le_max_left n k) p h
  have e' := M.runs_extends_of_le (Nat.le_max_right n k) p h'
  rw [e] at e'
  simpa using e'

@[simp] theorem runs_pure (a b : α) (s t : σ) : M.Runs (pure a : Prog σ υ ι ρ κ inner m α) s b t ↔ b = a ∧ t = s := by
  constructor
  · rintro ⟨n, h⟩
    cases h
    exact ⟨rfl, rfl⟩
  · rintro ⟨rfl, rfl⟩
    exact ⟨0, rfl⟩

theorem runs_bind (p : Prog σ υ ι ρ κ inner m α) (f : α → Prog σ υ ι ρ κ inner m γ) (s t : σ) (b : γ) :
    M.Runs (p >>= f) s b t ↔ ∃ a u, M.Runs p s a u ∧ M.Runs (f a) u b t := by
  constructor
  · rintro ⟨n, h⟩
    rw [runs, Prog.run_bind, Cutoff.bind_apply] at h
    rcases hp : p.run M (M.proc n) (M.iter n) s with ⟨_ | a, u⟩ <;> rw [hp] at h
    · simp at h
    · exact ⟨a, u, ⟨n, hp⟩, n, h⟩
  · rintro ⟨a, u, ⟨n, hp⟩, k, hf⟩
    refine ⟨max n k, (Prog.run_bind p f s).trans ?_⟩
    refine (Cutoff.bind_of_some (M.runs_extends_of_le (Nat.le_max_left n k) p hp)).trans ?_
    exact M.runs_extends_of_le (Nat.le_max_right n k) (f a) hf

@[simp] theorem runs_read_bind (f : σ → Prog σ υ ι ρ κ inner m α) (s t : σ) (a : α) :
    M.Runs (Prog.read >>= f) s a t ↔ M.Runs (f s) s a t := .rfl

@[simp] theorem runs_modify_bind (u : υ) (f : Unit → Prog σ υ ι ρ κ inner m α) (s t : σ) (a : α) :
    M.Runs (Prog.modify u >>= f) s a t ↔ M.Runs (f ()) (M.apply u s) a t := .rfl

@[simp] theorem runs_pure_bind (b : γ) (f : γ → Prog σ υ ι ρ κ inner m α) (s t : σ) (a : α) :
    M.Runs (pure b >>= f) s a t ↔ M.Runs (f b) s a t := .rfl

theorem runs_invoke (i : ι) (s t : σ) (r : ρ) :
    M.Runs (.invoke i : Prog σ υ ι ρ κ inner m ρ) s r t ↔ M.Calls i s r t := by
  refine exists_congr fun n => ?_
  simp only [runs, Prog.invoke, Prog.run]
  rcases M.proc n i s with ⟨_ | r, t⟩ <;> rfl

theorem Calls.unique {t' : σ} {r' : ρ} (h : M.Calls i s r t) (h' : M.Calls i s r' t') : r = r' ∧ t = t' :=
  Runs.unique ((runs_invoke (m := false) ..).mpr h) ((runs_invoke ..).mpr h')

theorem runs_bracket (b : β) (j : κ b) (h : inner b → m) (s t : σ) (r : ρ) :
    M.Runs (.bracket b h j) s r t ↔ match if M.guarded b then M.halt s else none with
      | some r' => r = r' ∧ t = s
      | none => ∃ u, M.Iterates b j (M.enter b s) r u ∧ t = M.leave b s u := by
  have hrun (n : ℕ) : M.runs n (.bracket b h j) s =
      match if M.guarded b then M.halt s else none with
      | some r => (some r, s)
      | none =>
        match M.iter n b j (M.enter b s) with
        | (some r, t) => (some r, M.leave b s t)
        | (none, t) => (none, t) := by
    simp only [runs, Prog.bracket, Prog.run]
  simp only [Runs, hrun]
  rcases (if M.guarded b then M.halt s else none) with _ | r'
  · constructor
    · rintro ⟨n, h⟩
      rcases hj : M.iter n b j (M.enter b s) with ⟨_ | r, u⟩ <;> simp only [hj] at h
      · simp at h
      · simp only [Prod.mk.injEq, Option.some.injEq] at h
        exact ⟨u, ⟨n, by rw [hj, h.1]⟩, h.2.symm⟩
    · rintro ⟨u, ⟨n, hj⟩, rfl⟩
      exact ⟨n, by simp only [hj]⟩
  · constructor
    · rintro ⟨_, h⟩
      simp only [Prod.mk.injEq, Option.some.injEq] at h
      exact ⟨h.1.symm, h.2.symm⟩
    · rintro ⟨rfl, rfl⟩
      exact ⟨0, rfl⟩

theorem runs_undefined (s t : σ) (r : ρ) :
    M.Runs (.undefined : Prog σ υ ι ρ κ inner m ρ) s r t ↔ (if m then none else M.halt s) = some r ∧ t = s := by
  have hrun (n : ℕ) : M.runs n (.undefined : Prog σ υ ι ρ κ inner m ρ) s =
      match if m then none else M.halt s with
      | some r => (some r, s)
      | none => (none, M.exhaust s) := by
    simp only [runs, Prog.undefined, Prog.run]
  simp only [Runs, hrun]
  rcases (if m then none else M.halt s) with _ | r'
  · simp
  · simp [eq_comm]

theorem calls_of_halt {r' : ρ} (h : M.halt s = some r') : M.Calls i s r t ↔ r = r' ∧ t = s := by
  constructor
  · rintro ⟨_ | n, hn⟩
    · rw [proc_zero, h] at hn
      simpa [eq_comm] using hn
    · rw [proc_succ, h] at hn
      simpa [eq_comm] using hn
  · rintro ⟨rfl, rfl⟩
    exact ⟨0, by rw [proc_zero, h]⟩

theorem calls_iff (h : M.halt s = none) : M.Calls i s r t ↔ M.Runs (M.step i) (M.note s) r t := by
  constructor
  · rintro ⟨_ | n, hn⟩
    · simp [proc_zero, h] at hn
    · rw [proc_succ, h] at hn
      exact ⟨n, hn⟩
  · rintro ⟨n, hn⟩
    exact ⟨n + 1, by rw [proc_succ, h]; exact hn⟩

theorem iterates_iff {b : β} {j : κ b}
    (h : (if M.checked b then M.halt s else none) = none) :
    M.Iterates b j s r t ↔ (∃ j' u, M.Runs (M.body b j) (M.note s) (.inl j') u ∧ M.Iterates b j' u r t) ∨
      M.Runs (M.body b j) (M.note s) (.inr r) t := by
  constructor
  · rintro ⟨_ | n, hn⟩
    · simp [iter_zero, h] at hn
    · rw [iter_succ, h] at hn
      rcases hb : M.runs n (M.body b j) (M.note s) with ⟨_ | (j' | r'), u⟩ <;> simp only [hb] at hn
      · simp at hn
      · exact .inl ⟨j', u, ⟨n, hb⟩, n, hn⟩
      · simp only [Prod.mk.injEq, Option.some.injEq] at hn
        exact .inr ⟨n, by rw [hb, hn.1, hn.2]⟩
  · rintro (⟨j', u, ⟨n, hb⟩, k, hi⟩ | ⟨n, hb⟩)
    · refine ⟨max n k + 1, ?_⟩
      rw [iter_succ, h]
      simp only [M.runs_extends_of_le (Nat.le_max_left n k) _ hb]
      exact (M.exec_extends_of_le (Nat.le_max_right n k)).2 b j' hi
    · exact ⟨n + 1, by rw [iter_succ, h]; simp only [hb]⟩

/-- Induction over the rounds of a loop that ended. -/
theorem Iterates.induct {b : β} {P : κ b → σ → ρ → σ → Prop}
    (halted : ∀ {j s r}, (if M.checked b then M.halt s else none) = some r → P j s r s)
    (last : ∀ {j s r t}, (if M.checked b then M.halt s else none) = none →
      M.Runs (M.body b j) (M.note s) (.inr r) t → P j s r t)
    (more : ∀ {j s j' u r t}, (if M.checked b then M.halt s else none) = none →
      M.Runs (M.body b j) (M.note s) (.inl j') u → P j' u r t → P j s r t)
    {j : κ b} (h : M.Iterates b j s r t) : P j s r t := by
  obtain ⟨n, hn⟩ := h
  induction n generalizing j s with
  | zero =>
    rw [iter_zero] at hn
    rcases hs : (if M.checked b then M.halt s else none) with _ | r' <;> rw [hs] at hn
    · simp at hn
    · simp only [Prod.mk.injEq, Option.some.injEq] at hn
      obtain ⟨rfl, rfl⟩ := hn
      exact halted hs
  | succ n ih =>
    rw [iter_succ] at hn
    rcases hs : (if M.checked b then M.halt s else none) with _ | r' <;> rw [hs] at hn
    · rcases hb : M.runs n (M.body b j) (M.note s) with ⟨_ | (j' | r'), u⟩ <;> simp only [hb] at hn
      · simp at hn
      · exact more hs ⟨n, hb⟩ (ih hn)
      · simp only [Prod.mk.injEq, Option.some.injEq] at hn
        obtain ⟨rfl, rfl⟩ := hn
        exact last hs ⟨n, hb⟩
    · simp only [Prod.mk.injEq, Option.some.injEq] at hn
      obtain ⟨rfl, rfl⟩ := hn
      exact halted hs

end BigStep

/-- `R` relates the ends of a run that finished and `Q` the start of a run to the state in which it was
cut off. `Deep` holds wherever a program of the inner mode runs. Nothing is noted and nothing is cut
off in a state in which the machine has stopped, unless the state is `Deep`. -/
structure Framed (R Q : σ → σ → Prop) (Deep : σ → Prop) : Prop where
  refl : ∀ s, R s s
  trans : ∀ {s t u}, R s t → R t u → R s u
  deep : ∀ {s t}, R s t → Deep s → Deep t
  note : ∀ {s}, M.halt s = none ∨ Deep s → R s (M.note s)
  bracket : ∀ {b s t}, (M.guarded b → M.halt s = none) → (inner b → Deep s) →
    R (M.enter b s) t → R s (M.leave b s t)
  opens : ∀ {b s}, (M.guarded b → M.halt s = none) → (inner b → Deep s) →
    M.opens b ∨ M.checked b = false → Deep (M.enter b s)
  exhaust : ∀ {s}, M.halt s = none ∨ Deep s → Q s (M.exhaust s)
  later : ∀ {s t u}, R s t → Q t u → Q s u
  inside : ∀ {b s t}, (M.guarded b → M.halt s = none) → (inner b → Deep s) →
    Q (M.enter b s) t → Q s t

/-- Every update respects `R`. -/
structure Closed (R Q : σ → σ → Prop) (Deep : σ → Prop) : Prop extends M.Framed R Q Deep where
  apply : ∀ u s, R s (M.apply u s)

/-- The updates in `P` respect `R` only while the machine goes on, and the programs are careful with them, except in
states that are `Exempt`, to which an update in `U` leads when the machine has stopped. -/
structure Minded (P U : υ → Prop) (R Q : σ → σ → Prop) (Deep Exempt : σ → Prop) : Prop
    extends M.Framed R Q Deep where
  exempt : ∀ {s t}, R s t → Exempt s → Exempt t
  exempt_of_deep : ∀ {s}, Deep s → Exempt s
  exempt_of_stopped : ∀ {u s}, U u → M.halt s ≠ none → Exempt (M.apply u s)
  apply : ∀ {u s}, (P u → U u ∨ M.halt s = none ∨ Exempt s) → R s (M.apply u s)
  step : ∀ i s, M.halt s = none → Exempt s ∨ (M.step i).Careful M P U (fun _ _ => True) (M.note s)
  body : ∀ b j s, M.checked b = true → M.halt s = none →
    Exempt s ∨ (M.body b j).Careful M P U (fun _ _ => True) (M.note s)

namespace Closed

/-- The outcome of a run from `s` is related to `s`. -/
def Outcome (R Q : σ → σ → Prop) (s : σ) : Option α × σ → Prop
  | (some _, t) => R s t
  | (none, t) => Q s t

end Closed

namespace Minded

open Closed (Outcome)

variable {M} {P U : υ → Prop} {R Q : σ → σ → Prop} {Deep Exempt : σ → Prop} (C : M.Minded P U R Q Deep Exempt)

include C

theorem outcome_later {s t : σ} (h : R s t) : ∀ {o : Option α × σ}, Outcome R Q t o → Outcome R Q s o
  | (some _, _), ho => C.trans h ho
  | (none, _), ho => C.later h ho

/-- The rule for programs, given the calls and loops they make. -/
theorem run {c : ι → Cutoff σ ρ} {l : (b : β) → κ b → Cutoff σ ρ}
    (hc : ∀ i s, Outcome R Q s (c i s))
    (hl : ∀ b j s, (M.checked b = false → Deep s) → (M.opens b → Deep s) → Outcome R Q s (l b j s))
    (p : Prog σ υ ι ρ κ inner m α) (s : σ) (hm : m → Deep s)
    (hp : Exempt s ∨ p.Careful M P U (fun _ _ => True) s) : Outcome R Q s (p.run M c l s) := by
  induction p generalizing s with
  | pure a => exact C.refl s
  | get k ih => exact ih s s hm hp
  | update u k ih =>
    by_cases hu : U u → M.halt s = none
    · replace hp := hp.imp_right (· hu)
      have hR : R s (M.apply u s) := C.apply fun hP => .inr (hp.symm.imp_left (·.1 hP))
      exact C.outcome_later hR (ih _ (fun h => C.deep hR (hm h)) (hp.imp (C.exempt hR) (·.2)))
    · obtain ⟨hU, hs⟩ := Classical.not_imp.mp hu
      have hR : R s (M.apply u s) := C.apply fun _ => .inl hU
      exact C.outcome_later hR (ih _ (fun h => C.deep hR (hm h)) (.inl (C.exempt_of_stopped hU hs)))
  | call i k ih =>
    have hi := hc i s
    simp only [Prog.run]
    rcases hcs : c i s with ⟨_ | r, t⟩ <;> rw [hcs] at hi
    · exact hi
    · exact C.outcome_later hi (ih r t (fun h => C.deep hi (hm h)) (hp.imp (C.exempt hi) (· r t)))
  | loop b hb j k ih =>
    simp only [Prog.run]
    rcases hg : (if M.guarded b then M.halt s else none) with _ | r
    · have hguard : M.guarded b → M.halt s = none := fun h => by rwa [if_pos h] at hg
      have hin : inner b → Deep s := fun h => hm (hb h)
      have hj := hl b j (M.enter b s) (fun h => C.opens hguard hin (.inr h))
        fun h => C.opens hguard hin (.inl h)
      rcases hls : l b j (M.enter b s) with ⟨_ | r, t⟩ <;> rw [hls] at hj
      · exact C.inside hguard hin hj
      · have ht := C.bracket hguard hin hj
        exact C.outcome_later ht (ih r _ (fun h => C.deep ht (hm h)) (hp.imp (C.exempt ht) (· r _)))
    · exact ih r s hm (hp.imp_right (· r s))
  | cut k ih =>
    simp only [Prog.run]
    rcases hg : (if m then none else M.halt s) with _ | r
    · refine C.exhaust ?_
      cases m with
      | false => exact .inl hg
      | true => exact .inr (hm rfl)
    · exact ih r s hm (hp.imp_right (· r))

/-- **The invariant rule.** Every call and every loop relates its start to its outcome. -/
theorem exec (n : ℕ) : (∀ i s, Outcome R Q s (M.proc n i s)) ∧
    ∀ b j s, (M.checked b = false → Deep s) → (M.opens b → Deep s) → Outcome R Q s (M.iter n b j s) := by
  induction n with
  | zero =>
    constructor
    · intro i s
      rw [proc_zero]
      rcases hs : M.halt s with _ | r
      · exact C.exhaust (.inl hs)
      · exact C.refl s
    · intro b j s hb _
      rw [iter_zero]
      rcases hs : (if M.checked b then M.halt s else none) with _ | r
      · refine C.exhaust ?_
        rcases hk : M.checked b with _ | _
        · exact .inr (hb hk)
        · exact .inl (by rwa [if_pos hk] at hs)
      · exact C.refl s
  | succ n ih =>
    constructor
    · intro i s
      rw [proc_succ]
      rcases hs : M.halt s with _ | r
      · have hn := C.note (.inl hs)
        exact C.outcome_later hn (C.run ih.1 ih.2 _ _ (by simp) ((C.step i s hs).imp_left (C.exempt hn)))
      · exact C.refl s
    · intro b j s hb ho
      rw [iter_succ]
      rcases hs : (if M.checked b then M.halt s else none) with _ | r
      · have hgo : M.halt s = none ∧ M.checked b = true ∨ Deep s := by
          rcases hk : M.checked b with _ | _
          · exact .inr (hb hk)
          · exact .inl ⟨by rwa [if_pos hk] at hs, rfl⟩
        have hn : R s (M.note s) := C.note (hgo.imp_left (·.1))
        have hcare := hgo.elim (fun h => C.body b j s h.2 h.1) fun h => .inl (C.exempt_of_deep h)
        have hrun := C.outcome_later hn
          (C.run ih.1 ih.2 (M.body b j) _ (fun h => C.deep hn (ho h)) (hcare.imp_left (C.exempt hn)))
        change Outcome R Q s (M.runs n (M.body b j) (M.note s)) at hrun
        rcases hr : M.runs n (M.body b j) (M.note s) with ⟨_ | (j' | r), t⟩ <;> rw [hr] at hrun
        · exact hrun
        · exact C.outcome_later hrun (ih.2 b j' t (fun h => C.deep hrun (hb h)) fun h => C.deep hrun (ho h))
        · exact hrun
      · exact C.refl s

theorem runs (n : ℕ) (p : Prog σ υ ι ρ κ inner m α) (s : σ) (hm : m → Deep s)
    (hp : Exempt s ∨ p.Careful M P U (fun _ _ => True) s) : Outcome R Q s (M.runs n p s) :=
  C.run (C.exec n).1 (C.exec n).2 p s hm hp

end Minded

theorem Closed.runs {M : Machine σ υ ι ρ κ inner} {R Q : σ → σ → Prop} {Deep : σ → Prop} (C : M.Closed R Q Deep) (n : ℕ)
    (p : Prog σ υ ι ρ κ inner m α) (s : σ) (hm : m → Deep s) : Outcome R Q s (M.runs n p s) := by
  -- every state is exempt
  have hC : M.Minded (fun _ => False) (fun _ => False) R Q Deep (fun _ => True) :=
    { C with
      exempt := fun _ _ => trivial
      exempt_of_deep := fun _ => trivial
      exempt_of_stopped := fun h _ => h.elim
      apply := fun _ => C.apply _ _
      step := fun _ _ _ => .inl trivial
      body := fun _ _ _ _ _ => .inl trivial }
  exact hC.runs n p s hm (.inl trivial)

section Observer

/-- What is recorded about a run without the run reading it. `leave` is given both ends of the bracket. -/
structure Observer (σ υ β τ : Type) where
  apply : υ → σ → τ → τ
  note : σ → τ → τ
  exhaust : σ → τ → τ
  enter : β → σ → τ → τ
  leave : β → σ × τ → σ × τ → τ

variable {τ : Type}

/-- A program that leaves the record alone. -/
def observed : Prog σ υ ι ρ κ inner m α → Prog (σ × τ) υ ι ρ κ inner m α
  | .pure a => .pure a
  | .get k => .get fun s => observed (k s.1)
  | .update u k => .update u (observed k)
  | .call i k => .call i fun r => observed (k r)
  | .loop b h j k => .loop b h j fun r => observed (k r)
  | .cut k => .cut fun r => observed (k r)

/-- The machine together with the record of what it does. -/
def observe (O : Observer σ υ β τ) : Machine (σ × τ) υ ι ρ κ inner where
  apply u s := (M.apply u s.1, O.apply u s.1 s.2)
  note s := (M.note s.1, O.note s.1 s.2)
  exhaust s := (M.exhaust s.1, O.exhaust s.1 s.2)
  halt s := M.halt s.1
  guarded := M.guarded
  checked := M.checked
  opens := M.opens
  enter b s := (M.enter b s.1, O.enter b s.1 s.2)
  leave b s t := (M.leave b s.1 t.1, O.leave b s t)
  step i := observed (M.step i)
  body b j := observed (M.body b j)

variable {M} (O : Observer σ υ β τ)

/-- Forgetting the record. -/
def plain : Option α × σ × τ → Option α × σ
  | (a, s, _) => (a, s)

theorem run_observed {c : ι → Cutoff σ ρ} {l : (b : β) → κ b → Cutoff σ ρ}
    {c' : ι → Cutoff (σ × τ) ρ} {l' : (b : β) → κ b → Cutoff (σ × τ) ρ}
    (hc : ∀ i s, plain (c' i s) = c i s.1) (hl : ∀ b j s, plain (l' b j s) = l b j s.1)
    (p : Prog σ υ ι ρ κ inner m α) (s : σ × τ) :
    plain ((observed p).run (M.observe O) c' l' s) = p.run M c l s.1 := by
  induction p generalizing s with
  | pure a => rfl
  | get k ih => exact ih s.1 s
  | update u k ih => exact ih _
  | call i k ih =>
    simp only [observed, Prog.run, ← hc]
    rcases c' i s with ⟨_ | r, t⟩
    · rfl
    · exact ih r t
  | loop b h j k ih =>
    simp only [observed, Prog.run, observe]
    rcases (if M.guarded b then M.halt s.1 else none) with _ | r
    · have hj := hl b j (M.enter b s.1, O.enter b s.1 s.2)
      simp only [← hj]
      rcases l' b j (M.enter b s.1, O.enter b s.1 s.2) with ⟨_ | r, t⟩
      · rfl
      · exact ih r _
    · exact ih r s
  | cut k ih =>
    simp only [observed, Prog.run, observe]
    rcases (if m then none else M.halt s.1) with _ | r
    · rfl
    · exact ih r s

theorem careful_observed {P U : υ → Prop} {post : α → σ → Prop} (p : Prog σ υ ι ρ κ inner m α) {s : σ × τ}
    (h : p.Careful M P U post s.1) : (observed p).Careful (M.observe O) P U (fun a t => post a t.1) s := by
  induction p generalizing s with
  | pure a => exact h
  | get k ih => exact ih s.1 h
  | update u k ih => exact fun hu => ⟨(h hu).1, ih (h hu).2⟩
  | call i k ih => exact fun r t => ih r (h r t.1)
  | loop b hb j k ih => exact fun r t => ih r (h r t.1)
  | cut k ih => exact fun r => ih r (h r)

/-- **Recording changes nothing.** -/
theorem exec_observe (n : ℕ) : (∀ i s, plain ((M.observe O).proc n i s) = M.proc n i s.1) ∧
    ∀ b j s, plain ((M.observe O).iter n b j s) = M.iter n b j s.1 := by
  induction n with
  | zero =>
    constructor
    · intro i s
      simp only [proc_zero, observe]
      rcases M.halt s.1 with _ | r <;> rfl
    · intro b j s
      simp only [iter_zero, observe]
      rcases (if M.checked b then M.halt s.1 else none) with _ | r <;> rfl
  | succ n ih =>
    constructor
    · intro i s
      rw [proc_succ, proc_succ]
      change plain (match M.halt s.1 with
        | some r => (some r, s)
        | none => _) = _
      rcases M.halt s.1 with _ | r
      · exact run_observed O ih.1 ih.2 (M.step i) _
      · rfl
    · intro b j s
      rw [iter_succ, iter_succ]
      change plain (match if M.checked b then M.halt s.1 else none with
        | some r => (some r, s)
        | none => _) = _
      rcases (if M.checked b then M.halt s.1 else none) with _ | r
      · have hb : plain ((M.observe O).runs n ((M.observe O).body b j) ((M.observe O).note s)) =
            M.runs n (M.body b j) (M.note s.1) := run_observed O ih.1 ih.2 (M.body b j) _
        simp only [← hb]
        rcases (M.observe O).runs n ((M.observe O).body b j) ((M.observe O).note s)
          with ⟨_ | (j' | r), t⟩
        · rfl
        · exact ih.2 b j' t
        · rfl
      · rfl

theorem runs_observe (n : ℕ) (p : Prog σ υ ι ρ κ inner m α) (s : σ × τ) :
    plain ((M.observe O).runs n (observed p) s) = M.runs n p s.1 :=
  run_observed O (exec_observe O n).1 (exec_observe O n).2 p s

end Observer

end Machine
