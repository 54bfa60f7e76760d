import Fluxa.Base.LostUpdate
import Fluxa.IntArith
import Mathlib.Data.BitVec

/-! Threads of `std.flxthread` that add to a shared `prst` variable under `ft.lock` (`flx_lock_acquire`, and
the statements of a thread in `runtime.c`). A thread works on a copy of the variable, which it takes when its runtime
is cloned and again before a compiled loop; a statement adds to the copy and writes the copy to the pool. The lock is
held for the write only, and it is looked up in another copy of the registry than the one `ft.lock` enters it in. -/

namespace Fluxa.FlxThread

open LostUpdate Cell

section Locks

def fluxaLockMax : ℕ := 32

/-- The named locks of one copy of `g_flx_registry`. -/
abbrev LockRegistry := List Ident

def flxFindLock (r : LockRegistry) (x : Ident) : Bool := r.contains x

def flxRegisterLock (r : LockRegistry) (x : Ident) : Option LockRegistry :=
  if flxFindLock r x then some r else if fluxaLockMax ≤ r.length then none else some (r ++ [x])

/-- `g_flx_registry` is `static` in the header: the library and `runtime.c` have one each. -/
structure Registries where
  library : LockRegistry
  runtime : LockRegistry

def Registries.start : Registries := ⟨[], []⟩

/-- `ft.lock`; `none` is its error. -/
def ftLock (g : Registries) (x : Ident) : Option Registries :=
  (flxRegisterLock g.library x).map fun r => { g with library := r }

end Locks

section Programs

/-- What computes a sum: `eval_binary`, or an instruction of a compiled loop. -/
inductive Tier where
  | evaluator | vm
  deriving DecidableEq

/-- The sum of two integers; `none` where the C code is undefined. -/
def Tier.add : Tier → Int64 → Int64 → Option Int64
  | .evaluator, a, b =>
    match evalBinaryOp .add (.int a) (.int b) with
    | .value (.int v) => some v
    | _ => none
  | .vm, a, b =>
    match vmBinaryOp .add (.int a) (.int b) with
    | some (.int v) => some v
    | _ => none

/-- The steps of a thread that touch the variable. `read` copies the pool's value to the slot of the thread's stack,
`add` is a sum of that slot and a constant, which is stored there, `check` is the read of the type check in front of an
assignment, and `write` is `prst_pool_set` with the slot. -/
inductive Act where
  | read
  | add (tier : Tier) (item round : ℕ)
  | check
  | acquire
  | write
  | release
  deriving DecidableEq

/-- The pool is written under the lock if `flx_lock_acquire` finds one. -/
def storeActs (g : Registries) (x : Ident) : List Act :=
  if flxFindLock g.runtime x then [.acquire, .write, .release] else [.write]

/-- A statement `x = x + c`, or a compiled loop with one more round than `more`, each of them such a
statement. -/
inductive Work where
  | assign
  | loop (more : ℕ)

/-- In a function the name is a warm one: `rt_get` reads the slot and does not ask the pool. A loop that is compiled
takes the pool's value to the slot first. -/
def Work.acts (g : Registries) (x : Ident) (item : ℕ) : Work → List Act
  | .assign => .add .evaluator item 0 :: .check :: storeActs g x
  | .loop more => .read :: ((List.range (more + 1)).map (.add .vm item) ++ storeActs g x)

def threadActs (g : Registries) (x : Ident) : ℕ → List Work → List Act
  | _, [] => []
  | item, w :: works => w.acts g x item ++ threadActs g x (item + 1) works

/-- `flx_fn_runner`: the slots are filled from the pool (`runtime_clone_for_thread`), then the body is evaluated. -/
def threadProgram (g : Registries) (x : Ident) (works : List Work) : List Act := .read :: threadActs g x 0 works

end Programs

/-- A statement of a thread: the piece of work it belongs to, and the round of the loop. -/
structure Label where
  thread : ℕ
  item : ℕ
  round : ℕ
  deriving DecidableEq

section Machine

/-- What the threads have still to do, and which of them is in the lock. -/
structure Threads where
  todo : List (List Act)
  holder : Option ℕ

def Threads.start (g : Registries) (x : Ident) (plan : List (List Work)) : Threads :=
  ⟨plan.map (threadProgram g x), none⟩

/-- A step of thread `t`. A thread that waits for the lock, or has ended, makes none. -/
def Threads.step (s : Threads) (t : ℕ) : Threads × Option Act :=
  match s.todo[t]? with
  | some (a :: rest) =>
    let todo := s.todo.set t rest
    match a with
    | .acquire => if s.holder.isNone then (⟨todo, some t⟩, some a) else (s, none)
    | .release => (⟨todo, none⟩, some a)
    | _ => (⟨todo, s.holder⟩, some a)
  | _ => (s, none)

/-- The steps that an interleaving makes, each with its thread. -/
def Threads.run (s : Threads) : List ℕ → Threads × List (ℕ × Act)
  | [] => (s, [])
  | t :: sched =>
    let next := s.step t
    let rest := next.1.run sched
    (rest.1, next.2.toList.map (t, ·) ++ rest.2)

def Threads.finished (s : Threads) : Bool := s.todo.all (·.isEmpty)

/-- The pool entry of the variable, and the value each thread has of it. -/
structure Shared where
  pool : Int64
  own : ℕ → Int64

/-- `c` gives the constants of the statements. -/
def Shared.perform (c : Label → Int64) (s : Shared) : ℕ × Act → Option Shared
  | (t, .read) => some { s with own := Function.update s.own t s.pool }
  | (t, .add tier item round) =>
    (tier.add (s.own t) (c ⟨t, item, round⟩)).map fun v => { s with own := Function.update s.own t v }
  | (t, .write) => some { s with pool := s.own t }
  | (_, .check) | (_, .acquire) | (_, .release) => some s

def Shared.exec (c : Label → Int64) (s : Shared) (tr : List (ℕ × Act)) : Option Shared :=
  tr.foldlM (Shared.perform c) s

/-- Every sum that is computed is the sum of its operands, modulo `2 ^ 64`. -/
def Shared.Exact (c : Label → Int64) (s : Shared) : List (ℕ × Act) → Prop
  | [] => True
  | (t, a) :: tr =>
    (∀ tier item round, a = .add tier item round →
      tier.add (s.own t) (c ⟨t, item, round⟩) = some (s.own t + c ⟨t, item, round⟩)) ∧
    ∀ s', s.perform c (t, a) = some s' → s'.Exact c tr

end Machine

section Goal

variable (g : Registries) (x : Ident) (plan : List (List Work)) (sched : List ℕ) (x₀ : Int64)

def actLabels (t : ℕ) : List Act → List Label
  | [] => []
  | .add _ item round :: as => ⟨t, item, round⟩ :: actLabels t as
  | _ :: as => actLabels t as

def statements : List Label :=
  (plan.map (threadProgram g x)).zipIdx.flatMap fun p => actLabels p.2 p.1

def trace : List (ℕ × Act) := ((Threads.start g x plan).run sched).2

def Finished : Prop := ((Threads.start g x plan).run sched).1.finished = true

instance : Decidable (Finished g x plan sched) := inferInstanceAs (Decidable (_ = true))

/-- What `ft.resolve_all` copies from the pool when the threads have ended. -/
def outcome (c : Label → Int64) : Option Int64 :=
  ((⟨x₀, fun _ => x₀⟩ : Shared).exec c (trace g x plan sched)).map (·.pool)

/-- The variable has its initial value plus all increments, modulo `2 ^ 64`. -/
def AddsUp (c : Label → Int64) : Prop :=
  Finished g x plan sched → outcome g x plan sched x₀ c = some (x₀ + ((statements g x plan).map c).sum)

def ExactSums (c : Label → Int64) : Prop :=
  (⟨x₀, fun _ => x₀⟩ : Shared).Exact c (trace g x plan sched)

def access : ℕ × Act → Option (Access ℕ Label)
  | (t, .read) => some (.read t)
  | (t, .add _ item round) => some (.add t ⟨t, item, round⟩)
  | (t, .write) => some (.write t)
  | _ => none

/-- No thread writes the variable between the moment another one takes its copy and a write of that copy. -/
def Undisturbed : Prop := Serial ((trace g x plan sched).filterMap access)

end Goal

section Projection

def stepsOf (t : ℕ) (tr : List (ℕ × Act)) : List Act := (tr.filter (·.1 == t)).map (·.2)

theorem stepsOf_cons_self (t : ℕ) (a : Act) (tr : List (ℕ × Act)) : stepsOf t ((t, a) :: tr) = a :: stepsOf t tr := by
  simp [stepsOf]

theorem stepsOf_cons_of_ne {t u : ℕ} (h : u ≠ t) (a : Act) (tr : List (ℕ × Act)) :
    stepsOf t ((u, a) :: tr) = stepsOf t tr := by
  simp [stepsOf, h]

/-- What a thread has to do when it is asked for its next step. -/
def Threads.rest (s : Threads) (t : ℕ) : List Act := (s.todo[t]?).getD []

theorem Threads.rest_step (s : Threads) (t u : ℕ) :
    s.rest u = stepsOf u ((s.step t).2.toList.map (t, ·)) ++ (s.step t).1.rest u := by
  have hset {a : Act} {rest : List Act} (h : s.todo[t]? = some (a :: rest)) (holder : Option ℕ) :
      s.rest u = stepsOf u [(t, a)] ++ (⟨s.todo.set t rest, holder⟩ : Threads).rest u := by
    have hlen := (List.getElem?_eq_some_iff.mp h).1
    by_cases hu : t = u
    · subst hu
      rw [Threads.rest, h, Threads.rest, List.getElem?_set_self hlen]
      simp [stepsOf]
    · simp [Threads.rest, stepsOf, hu]
  unfold step
  split
  · next a rest h =>
    cases a with
    | acquire =>
      dsimp only
      split
      · exact hset h _
      · rfl
    | read => exact hset h _
    | add tier item round => exact hset h _
    | check | write | release => exact hset h _
  · rfl

theorem Threads.rest_run (s : Threads) (sched : List ℕ) (u : ℕ) :
    s.rest u = stepsOf u (s.run sched).2 ++ (s.run sched).1.rest u := by
  induction sched generalizing s with
  | nil => rfl
  | cons t sched ih =>
    calc s.rest u = stepsOf u ((s.step t).2.toList.map (t, ·)) ++ (s.step t).1.rest u := s.rest_step t u
      _ = stepsOf u ((s.step t).2.toList.map (t, ·)) ++
          (stepsOf u ((s.step t).1.run sched).2 ++ ((s.step t).1.run sched).1.rest u) := by rw [ih]
      _ = _ := by rw [← List.append_assoc]; simp [run, stepsOf]

theorem Threads.rest_of_finished {s : Threads} (h : s.finished = true) (t : ℕ) : s.rest t = [] := by
  unfold rest
  rcases ht : s.todo[t]? with _ | as
  · rfl
  · exact List.isEmpty_iff.mp (List.all_eq_true.mp h as (List.mem_of_getElem? ht))

end Projection

section Pattern

/-- Follows a program: additions are made between a read and a write. The flag tells whether some have been
made that are not written. -/
def pattern (pending : Bool) : List Act → Option Bool
  | [] => some pending
  | .read :: as => if pending then none else pattern false as
  | .add _ _ _ :: as => pattern true as
  | .write :: as => if pending then pattern false as else none
  | .check :: as | .acquire :: as | .release :: as => pattern pending as

theorem pattern_append (b : Bool) (as bs : List Act) : pattern b (as ++ bs) = (pattern b as).bind (pattern · bs) := by
  induction as generalizing b with
  | nil => rfl
  | cons a as ih =>
    cases a with
    | read | write => cases b <;> simp [pattern, ih]
    | add tier item round => exact ih true
    | check | acquire | release => exact ih b

variable (g : Registries) (x : Ident)

theorem pattern_storeActs : pattern true (storeActs g x) = some false := by
  unfold storeActs
  split <;> rfl

theorem pattern_adds (b : Bool) (item : ℕ) {rounds : List ℕ} (h : rounds ≠ []) :
    pattern b (rounds.map (.add .vm item)) = some true := by
  induction rounds generalizing b with
  | nil => exact absurd rfl h
  | cons r rounds ih =>
    rcases rounds with _ | ⟨r', rounds⟩
    · rfl
    · exact ih true (by simp)

theorem pattern_work (item : ℕ) (w : Work) : pattern false (w.acts g x item) = some false := by
  cases w with
  | assign => exact pattern_storeActs g x
  | loop more =>
    change pattern false ((List.range (more + 1)).map (.add .vm item) ++ storeActs g x) = some false
    rw [pattern_append, pattern_adds _ _ (by simp), Option.bind_some, pattern_storeActs]

theorem pattern_threadActs (item : ℕ) (works : List Work) : pattern false (threadActs g x item works) = some false := by
  induction works generalizing item with
  | nil => rfl
  | cons w works ih => rw [threadActs, pattern_append, pattern_work, Option.bind_some, ih]

theorem pattern_rest_start (plan : List (List Work)) (t : ℕ) :
    pattern false ((Threads.start g x plan).rest t) = some false := by
  unfold Threads.start Threads.rest
  rw [List.getElem?_map]
  rcases plan[t]? with _ | works
  · rfl
  · exact pattern_threadActs g x 0 works

end Pattern

section Labels

variable (t : ℕ)

theorem actLabels_append (as bs : List Act) : actLabels t (as ++ bs) = actLabels t as ++ actLabels t bs := by
  induction as with
  | nil => rfl
  | cons a as ih => cases a <;> simp [actLabels, ih]

theorem mem_actLabels_fst {l : Label} {as : List Act} (h : l ∈ actLabels t as) : l.thread = t := by
  induction as with
  | nil => cases h
  | cons a as ih =>
    cases a with
    | add tier item round =>
      rcases List.mem_cons.mp h with rfl | h
      · rfl
      · exact ih h
    | read | check | acquire | write | release => exact ih h

variable (g : Registries) (x : Ident)

theorem actLabels_storeActs : actLabels t (storeActs g x) = [] := by
  unfold storeActs
  split <;> rfl

def Work.labels (item : ℕ) : Work → List Label
  | .assign => [⟨t, item, 0⟩]
  | .loop more => (List.range (more + 1)).map fun r => ⟨t, item, r⟩

theorem actLabels_work (item : ℕ) (w : Work) : actLabels t (w.acts g x item) = w.labels t item := by
  have hadds (rounds : List ℕ) : actLabels t (rounds.map (.add .vm item)) = rounds.map fun r => ⟨t, item, r⟩ := by
    induction rounds with
    | nil => rfl
    | cons r rounds ih => simp [actLabels, ih]
  cases w with
  | assign => simp [Work.acts, actLabels, actLabels_storeActs, Work.labels]
  | loop more =>
    change actLabels t ((List.range (more + 1)).map (.add .vm item) ++ storeActs g x) = _
    rw [actLabels_append, hadds, actLabels_storeActs, List.append_nil]
    rfl

theorem Work.nodup_labels (item : ℕ) (w : Work) : (w.labels t item).Nodup := by
  cases w with
  | assign => exact List.nodup_singleton _
  | loop more =>
    refine (List.nodup_map_iff fun r r' h => ?_).mpr List.nodup_range
    simpa using h

theorem Work.item_of_mem_labels {item : ℕ} {w : Work} {l : Label} (h : l ∈ w.labels t item) : l.item = item := by
  cases w with
  | assign =>
    obtain rfl := List.mem_singleton.mp h
    rfl
  | loop more =>
    obtain ⟨r, -, rfl⟩ := List.mem_map.mp h
    rfl

theorem item_of_mem_threadActs {item : ℕ} {works : List Work} {l : Label}
    (h : l ∈ actLabels t (threadActs g x item works)) : item ≤ l.item := by
  induction works generalizing item with
  | nil => cases h
  | cons w works ih =>
    rw [threadActs, actLabels_append, actLabels_work] at h
    rcases List.mem_append.mp h with h | h
    · exact (Work.item_of_mem_labels t h).ge
    · exact (Nat.le_succ item).trans (ih h)

theorem nodup_actLabels (item : ℕ) (works : List Work) : (actLabels t (threadActs g x item works)).Nodup := by
  induction works generalizing item with
  | nil => exact List.nodup_nil
  | cons w works ih =>
    rw [threadActs, actLabels_append, actLabels_work]
    refine List.nodup_append.mpr ⟨w.nodup_labels t item, ih _, ?_⟩
    intro l hl l' hl' he
    have hitem := Work.item_of_mem_labels t hl
    have hlater := item_of_mem_threadActs t g x hl'
    rw [← he] at hlater
    omega

theorem count_statements (plan : List (List Work)) (l : Label) :
    (statements g x plan).count l = (actLabels l.thread ((Threads.start g x plan).rest l.thread)).count l := by
  have hflat (ps : List (List Act)) (k : ℕ) :
      ((ps.zipIdx k).flatMap fun p => actLabels p.2 p.1).count l =
        if k ≤ l.thread then (actLabels l.thread ((ps[l.thread - k]?).getD [])).count l else 0 := by
    induction ps generalizing k with
    | nil => simp [actLabels]
    | cons as ps ih =>
      rw [List.zipIdx_cons, List.flatMap_cons, List.count_append, ih]
      rcases lt_trichotomy k l.thread with hk | hk | hk
      · have hzero : (actLabels k as).count l = 0 :=
          List.count_eq_zero.mpr fun h => hk.ne' (mem_actLabels_fst k h)
        rw [hzero, if_pos (Nat.succ_le_of_lt hk), if_pos hk.le, zero_add, show l.thread - k = l.thread - (k + 1) + 1 by omega,
          List.getElem?_cons_succ]
      · subst hk
        simp
      · have hzero : (actLabels k as).count l = 0 :=
          List.count_eq_zero.mpr fun h => hk.ne (mem_actLabels_fst k h)
        rw [hzero, if_neg (by omega), if_neg (by omega)]
  have h := hflat (plan.map (threadProgram g x)) 0
  rw [if_pos (Nat.zero_le _), Nat.sub_zero] at h
  exact h

end Labels

section Accounting

variable {c : Cell ℕ Label} {t u : ℕ} {a : Act} {tr : List (ℕ × Act)}

def cellStep (c : Cell ℕ Label) (e : ℕ × Act) : Cell ℕ Label :=
  match access e with
  | some a => c.step a
  | none => c

theorem run_filterMap_access (c : Cell ℕ Label) (e : ℕ × Act) (tr : List (ℕ × Act)) :
    c.run ((e :: tr).filterMap access) = (cellStep c e).run (tr.filterMap access) := by
  unfold cellStep
  rcases he : access e with _ | a
  · rw [List.filterMap_cons_none he]
  · rw [List.filterMap_cons_some he]
    rfl

/-- Whether a thread has made additions that it has not written. -/
def unwritten (c : Cell ℕ Label) (t : ℕ) : Bool := decide (c.pending t ≠ 0)

/-- A thread only has labels of its own. -/
def OwnLabels (c : Cell ℕ Label) : Prop := ∀ t, ∀ l ∈ c.pending t, l.thread = t

/-- What is left of a trace fits the threads' programs. -/
def Fits (c : Cell ℕ Label) (tr : List (ℕ × Act)) : Prop :=
  ∀ t, (pattern (unwritten c t) (stepsOf t tr)).isSome

theorem pending_cellStep_of_ne (h : u ≠ t) : (cellStep c (t, a)).pending u = c.pending u := by
  cases a <;> simp [cellStep, access, step, h]

theorem pattern_cellStep {as : List Act} (h : (pattern (unwritten c t) (a :: as)).isSome) :
    pattern (unwritten c t) (a :: as) = pattern (unwritten (cellStep c (t, a)) t) as := by
  cases a with
  | read =>
    rcases hu : unwritten c t with _ | _
    · simp [pattern, unwritten, cellStep, access, step]
    · simp [hu, pattern] at h
  | write =>
    rcases hu : unwritten c t with _ | _
    · simp [hu, pattern] at h
    · simp [pattern, unwritten, cellStep, access, step]
  | add tier item round => simp [pattern, unwritten, cellStep, access, step]
  | check | acquire | release => rfl

theorem Fits.step (h : Fits c ((t, a) :: tr)) : Fits (cellStep c (t, a)) tr := by
  intro u
  have hu := h u
  by_cases hut : u = t
  · subst hut
    rw [stepsOf_cons_self] at hu
    rwa [pattern_cellStep hu] at hu
  · rw [stepsOf_cons_of_ne (Ne.symm hut)] at hu
    rwa [unwritten, pending_cellStep_of_ne hut]

theorem Fits.pending (h : Fits c ((t, a) :: tr)) : (a = .read → c.pending t = 0) ∧ (a = .write → c.pending t ≠ 0) := by
  have ht := h t
  rw [stepsOf_cons_self] at ht
  constructor
  · rintro rfl
    by_contra hne
    simp [unwritten, hne, pattern] at ht
  · rintro rfl hzero
    simp [unwritten, hzero, pattern] at ht

theorem Fits.busy (h : Fits c tr) : c.Busy (tr.filterMap access) := by
  induction tr generalizing c with
  | nil => trivial
  | cons e tr ih =>
    obtain ⟨t, a⟩ := e
    have hrest := ih h.step
    cases a with
    | read => exact ⟨nofun, hrest⟩
    | add tier item round => exact ⟨nofun, hrest⟩
    | write =>
      refine ⟨?_, hrest⟩
      rintro i ⟨⟩
      exact h.pending.2 rfl
    | check | acquire | release => exact hrest

/-- At the end of a trace the flag of every thread tells whether it has something unwritten. -/
theorem Fits.unwritten_run (h : Fits c tr) (u : ℕ) :
    pattern (unwritten c u) (stepsOf u tr) = some (unwritten (c.run (tr.filterMap access)) u) := by
  induction tr generalizing c with
  | nil => rfl
  | cons e tr ih =>
    obtain ⟨t, a⟩ := e
    rw [run_filterMap_access, ← ih h.step]
    by_cases hut : u = t
    · subst hut
      have hu := h u
      rw [stepsOf_cons_self] at hu ⊢
      exact pattern_cellStep hu
    · rw [stepsOf_cons_of_ne (Ne.symm hut), unwritten, unwritten, pending_cellStep_of_ne hut]

theorem OwnLabels.cellStep (h : OwnLabels c) (t : ℕ) (a : Act) : OwnLabels (cellStep c (t, a)) := by
  intro u l hl
  by_cases hut : u = t
  · subst hut
    cases a with
    | add tier item round =>
      have hl : l ∈ ⟨u, item, round⟩ ::ₘ c.pending u := by
        simpa [FlxThread.cellStep, access, step] using hl
      rcases Multiset.mem_cons.mp hl with rfl | hl
      · rfl
      · exact h u l hl
    | read | write => simp [FlxThread.cellStep, access, step] at hl
    | check | acquire | release => exact h u l hl
  · rw [pending_cellStep_of_ne hut] at hl
    exact h u l hl

theorem Fits.count_step (h : Fits c ((t, a) :: tr)) (hown : OwnLabels c) (l : Label) :
    (cellStep c (t, a)).written.count l + ((cellStep c (t, a)).pending l.thread).count l =
      c.written.count l + (c.pending l.thread).count l + (actLabels l.thread (stepsOf l.thread [(t, a)])).count l := by
  by_cases hl : l.thread = t
  · subst hl
    rw [stepsOf_cons_self]
    cases a with
    | read => simp [cellStep, access, Cell.step, h.pending.1 rfl, stepsOf, actLabels]
    | write => simp [cellStep, access, Cell.step, stepsOf, actLabels]
    | add tier item round =>
      have hcons : (actLabels l.thread (.add tier item round :: stepsOf l.thread [])).count l =
          if l = ⟨l.thread, item, round⟩ then 1 else 0 := by
        change [(⟨l.thread, item, round⟩ : Label)].count l = _
        rw [List.count_singleton]
        exact if_congr (beq_iff_eq.trans eq_comm) rfl rfl
      rw [hcons]
      simp only [cellStep, access, Cell.step, Function.update_self, Multiset.count_cons]
      omega
    | check | acquire | release => simp [cellStep, access, stepsOf, actLabels]
  · have hnone : (c.pending t).count l = 0 := Multiset.count_eq_zero.mpr fun hmem => hl (hown t l hmem)
    rw [pending_cellStep_of_ne hl, stepsOf_cons_of_ne (Ne.symm hl)]
    cases a <;> simp [cellStep, access, Cell.step, stepsOf, actLabels, hnone]

theorem Fits.count_run (h : Fits c tr) (hown : OwnLabels c) (l : Label) :
    (c.run (tr.filterMap access)).written.count l + ((c.run (tr.filterMap access)).pending l.thread).count l =
      c.written.count l + (c.pending l.thread).count l + (actLabels l.thread (stepsOf l.thread tr)).count l := by
  induction tr generalizing c with
  | nil => rfl
  | cons e tr ih =>
    obtain ⟨t, a⟩ := e
    have hcons : stepsOf l.thread ((t, a) :: tr) = stepsOf l.thread [(t, a)] ++ stepsOf l.thread tr := by
      rw [stepsOf, stepsOf, stepsOf, ← List.map_append, ← List.filter_append]
      rfl
    rw [run_filterMap_access, ih h.step (hown.cellStep t a), h.count_step hown, hcons, actLabels_append,
      List.count_append, add_assoc]

end Accounting

section Trace

variable (g : Registries) (x : Ident) (plan : List (List Work)) (sched : List ℕ)

theorem fits_trace : Fits .start (trace g x plan sched) := by
  intro t
  have hpat := pattern_rest_start g x plan t
  rw [(Threads.start g x plan).rest_run sched t, pattern_append] at hpat
  change (pattern false (stepsOf t (trace g x plan sched))).isSome
  rcases hfst : pattern false (stepsOf t ((Threads.start g x plan).run sched).2) with _ | b
  · rw [hfst] at hpat
    exact absurd hpat nofun
  · rw [trace, hfst]
    rfl

theorem ownLabels_start : OwnLabels .start := fun _ _ h => absurd h (Multiset.notMem_zero _)

theorem written_of_finished (h : Finished g x plan sched) :
    ((start : Cell ℕ Label).run ((trace g x plan sched).filterMap access)).written =
      (statements g x plan : Multiset Label) := by
  have hfits := fits_trace g x plan sched
  refine Multiset.ext.mpr fun l => ?_
  have hrun : (Threads.start g x plan).rest l.thread = stepsOf l.thread (trace g x plan sched) := by
    rw [(Threads.start g x plan).rest_run sched l.thread, Threads.rest_of_finished h, List.append_nil]
    rfl
  have hnone : (run .start ((trace g x plan sched).filterMap access)).pending l.thread = 0 := by
    have hflag := hfits.unwritten_run l.thread
    rw [← hrun, show unwritten .start l.thread = false from rfl, pattern_rest_start] at hflag
    simpa [unwritten] using (Option.some.inj hflag).symm
  have hcount := hfits.count_run ownLabels_start l
  rw [hnone, ← hrun, ← count_statements] at hcount
  simpa [start] using hcount

theorem nodup_statements : (statements g x plan).Nodup := by
  refine List.nodup_iff_count_le_one.mpr fun l => ?_
  rw [count_statements]
  refine List.nodup_iff_count_le_one.mp ?_ l
  unfold Threads.start Threads.rest
  rw [List.getElem?_map]
  rcases plan[l.thread]? with _ | works
  · exact List.nodup_nil
  · exact nodup_actLabels l.thread g x 0 works

/-- A statement is executed at most once, also by threads that have not ended. -/
theorem count_trace_le (l : Label) : (actLabels l.thread (stepsOf l.thread (trace g x plan sched))).count l ≤ 1 := by
  have hle : (actLabels l.thread (stepsOf l.thread (trace g x plan sched))).count l ≤ (statements g x plan).count l := by
    rw [count_statements, (Threads.start g x plan).rest_run sched l.thread, actLabels_append, List.count_append]
    exact Nat.le_add_right ..
  exact hle.trans (List.nodup_iff_count_le_one.mp (nodup_statements g x plan) l)

end Trace

section Values

variable {c : Label → Int64}

/-- The values as numbers modulo `2 ^ 64`. -/
def Shared.store (s : Shared) : Store ℕ (BitVec 64) := ⟨s.pool.toBitVec, fun t => (s.own t).toBitVec⟩

theorem Shared.store_update (s : Shared) (t : ℕ) (v : Int64) :
    ({ s with own := Function.update s.own t v } : Shared).store =
      { s.store with own := Function.update s.store.own t v.toBitVec } := by
  have hown : (fun u => (Function.update s.own t v u).toBitVec) =
      Function.update (fun u => (s.own u).toBitVec) t v.toBitVec := by
    funext u
    by_cases hu : u = t
    · subst hu
      simp
    · simp [hu]
  simp only [store, hown]

theorem Shared.Exact.exec {s : Shared} {tr : List (ℕ × Act)} (h : s.Exact c tr) :
    ∃ s', s.exec c tr = some s' ∧
      s'.store = s.store.run (fun l => (c l).toBitVec) (tr.filterMap access) := by
  induction tr generalizing s with
  | nil => exact ⟨s, rfl, rfl⟩
  | cons e tr ih =>
    obtain ⟨t, a⟩ := e
    have hcons {s₁ : Shared} (hs₁ : s.perform c (t, a) = some s₁) : s.exec c ((t, a) :: tr) = s₁.exec c tr := by
      rw [Shared.exec, List.foldlM_cons, hs₁]
      rfl
    cases a with
    | read =>
      obtain ⟨s', hs', hstore⟩ := ih (h.2 _ rfl)
      refine ⟨s', (hcons rfl).trans hs', hstore.trans ?_⟩
      rw [store_update]
      rfl
    | add tier item round =>
      have hadd := h.1 tier item round rfl
      have hstep : s.perform c (t, .add tier item round) =
          some { s with own := Function.update s.own t (s.own t + c ⟨t, item, round⟩) } := by
        rw [perform, hadd]
        rfl
      obtain ⟨s', hs', hstore⟩ := ih (h.2 _ hstep)
      refine ⟨s', (hcons hstep).trans hs', hstore.trans ?_⟩
      rw [store_update, Int64.toBitVec_add]
      rfl
    | write | check | acquire | release =>
      obtain ⟨s', hs', hstore⟩ := ih (h.2 _ rfl)
      exact ⟨s', (hcons rfl).trans hs', hstore⟩

theorem toBitVec_sum (c : Label → Int64) (ls : List Label) :
    ((ls.map c).sum).toBitVec = ((ls : Multiset Label).map fun l => (c l).toBitVec).sum := by
  induction ls with
  | nil => rfl
  | cons l ls ih =>
    rw [List.map_cons, List.sum_cons, Int64.toBitVec_add, ih, ← Multiset.cons_coe, Multiset.map_cons,
      Multiset.sum_cons]

variable {g : Registries} {x : Ident} {plan : List (List Work)} {sched : List ℕ} {x₀ : Int64}

/-- The value the threads leave is made of the additions that were not lost. -/
theorem outcome_of_exact (hexact : ExactSums g x plan sched x₀ c) :
    ∃ v, outcome g x plan sched x₀ c = some v ∧ v.toBitVec = x₀.toBitVec +
      ((run .start ((trace g x plan sched).filterMap access)).shared.map fun l => (c l).toBitVec).sum := by
  obtain ⟨s', hs', hstore⟩ := Shared.Exact.exec hexact
  refine ⟨s'.pool, by rw [outcome, hs']; rfl, ?_⟩
  have hmade := (Store.Made.start (ι := ℕ) (d := fun l : Label => (c l).toBitVec) x₀.toBitVec).run
    ((trace g x plan sched).filterMap access)
  calc s'.pool.toBitVec = s'.store.shared := rfl
    _ = _ := by rw [hstore]; exact hmade.shared

theorem addsUp_iff (hfin : Finished g x plan sched) (hexact : ExactSums g x plan sched x₀ c) :
    AddsUp g x plan sched x₀ c ↔
      ((run .start ((trace g x plan sched).filterMap access)).shared.map fun l => (c l).toBitVec).sum =
        ((run .start ((trace g x plan sched).filterMap access)).written.map fun l => (c l).toBitVec).sum := by
  obtain ⟨v, hv, hval⟩ := outcome_of_exact hexact
  have htotal : (x₀ + ((statements g x plan).map c).sum).toBitVec = x₀.toBitVec +
      ((run .start ((trace g x plan sched).filterMap access)).written.map fun l => (c l).toBitVec).sum := by
    rw [written_of_finished g x plan sched hfin, Int64.toBitVec_add, toBitVec_sum]
  have hiff : AddsUp g x plan sched x₀ c ↔ v = x₀ + ((statements g x plan).map c).sum := by
    unfold AddsUp
    rw [hv]
    exact ⟨fun h => Option.some.inj (h hfin), fun h _ => congrArg some h⟩
  rw [hiff, ← Int64.toBitVec_inj, hval, htotal]
  exact add_right_inj _

end Values

section Exactness

theorem Tier.add_exact (tier : Tier) {a b : Int64} (ha : a.toInt.natAbs < 2 ^ 53) (hb : b.toInt.natAbs < 2 ^ 53)
    (hab : (a.toInt + b.toInt).natAbs < 2 ^ 53) : tier.add a b = some (a + b) := by
  have hsum : (a + b).toInt = a.toInt + b.toInt := by
    rw [Int64.toInt_add]
    exact Int.bmod_eq_of_le (by omega) (by omega)
  have hexact : ExactInAllTiers .add a b (a + b) :=
    .of_doubleSafe (.of_natAbs_lt ha) (.of_natAbs_lt hb) (congrArg some hsum.symm) (by
      change FitsDouble (a + b).toInt
      rw [hsum]
      exact .of_natAbs_lt hab)
  cases tier with
  | evaluator => rw [Tier.add, hexact.evaluator]
  | vm => rw [Tier.add, hexact.vm]

/-- The values lie between the initial one and `k` more. -/
def Shared.Within (x₀ : Int64) (k : ℕ) (s : Shared) : Prop :=
  (x₀.toInt ≤ s.pool.toInt ∧ s.pool.toInt ≤ x₀.toInt + k) ∧ ∀ t, x₀.toInt ≤ (s.own t).toInt ∧ (s.own t).toInt ≤ x₀.toInt + k

variable {x₀ : Int64} {k : ℕ} {s : Shared}

theorem Shared.Within.update (h : s.Within x₀ k) {k' : ℕ} (hk : k ≤ k') {t : ℕ} {v : Int64}
    (hv : x₀.toInt ≤ v.toInt ∧ v.toInt ≤ x₀.toInt + k') :
    ({ s with own := Function.update s.own t v } : Shared).Within x₀ k' := by
  have hup {z : ℤ} (hz : x₀.toInt ≤ z ∧ z ≤ x₀.toInt + k) : x₀.toInt ≤ z ∧ z ≤ x₀.toInt + k' := by omega
  refine ⟨hup h.1, fun u => ?_⟩
  by_cases hu : u = t
  · subst hu
    simpa using hv
  · simpa [hu] using hup (h.2 u)

theorem Shared.Within.perform (h : s.Within x₀ k) {c : Label → Int64} {t : ℕ} {a : Act}
    (ha : ∀ tier item round, a ≠ .add tier item round) {s' : Shared} (hs' : s.perform c (t, a) = some s') :
    s'.Within x₀ k := by
  cases a with
  | add tier item round => exact absurd rfl (ha tier item round)
  | read =>
    obtain rfl := Option.some.inj hs'
    exact h.update le_rfl h.1
  | write =>
    obtain rfl := Option.some.inj hs'
    exact ⟨h.2 t, h.2⟩
  | check | acquire | release => exact Option.some.inj hs' ▸ h

theorem count_cons_of_not_add (l : Label) (t : ℕ) {a : Act} (ha : ∀ tier item round, a ≠ .add tier item round)
    (tr : List (ℕ × Act)) : (actLabels l.thread (stepsOf l.thread ((t, a) :: tr))).count l =
      (actLabels l.thread (stepsOf l.thread tr)).count l := by
  by_cases ht : t = l.thread
  · rw [← ht, stepsOf_cons_self]
    cases a with
    | add tier item round => exact absurd rfl (ha tier item round)
    | _ => rfl
  · rw [stepsOf_cons_of_ne ht]

theorem count_cons_add (l : Label) (t : ℕ) (tier : Tier) (item round : ℕ) (tr : List (ℕ × Act)) :
    (actLabels l.thread (stepsOf l.thread ((t, .add tier item round) :: tr))).count l =
      (actLabels l.thread (stepsOf l.thread tr)).count l + if (⟨t, item, round⟩ : Label) = l then 1 else 0 := by
  by_cases ht : t = l.thread
  · rw [← ht, stepsOf_cons_self, actLabels, List.count_cons]
    exact congrArg _ (if_congr beq_iff_eq rfl rfl)
  · have hne : (⟨t, item, round⟩ : Label) ≠ l := fun h => ht (congrArg Label.thread h)
    rw [stepsOf_cons_of_ne ht, if_neg hne, add_zero]

theorem Shared.Within.exact (hlow : -2 ^ 53 < x₀.toInt) (hhigh : x₀.toInt + 2 < 2 ^ 53) (l : Label)
    {tr : List (ℕ × Act)} (hs : s.Within x₀ k)
    (hcount : k + (actLabels l.thread (stepsOf l.thread tr)).count l ≤ 1) : s.Exact (Pi.single l 1) tr := by
  induction tr generalizing s k with
  | nil => trivial
  | cons e tr ih =>
    obtain ⟨t, a⟩ := e
    by_cases hadd : ∃ tier item round, a = .add tier item round
    · obtain ⟨tier, item, round, rfl⟩ := hadd
      rw [count_cons_add] at hcount
      obtain ⟨hge, hle⟩ := hs.2 t
      -- the constant is one for the statement `l` and zero for every other
      obtain ⟨d, hd, hdk⟩ : ∃ d : ℕ, (Pi.single l (1 : Int64) : Label → Int64) ⟨t, item, round⟩ = Int64.ofNat d ∧
          (d ≤ 1 ∧ k + d + (actLabels l.thread (stepsOf l.thread tr)).count l ≤ 1) := by
        by_cases hl : (⟨t, item, round⟩ : Label) = l
        · rw [if_pos hl] at hcount
          exact ⟨1, by rw [hl, Pi.single_eq_same]; rfl, by omega, by omega⟩
        · rw [if_neg hl] at hcount
          exact ⟨0, Pi.single_eq_of_ne hl _, by omega, by omega⟩
      have hdint : (Int64.ofNat d).toInt = d := Int64.toInt_ofNat_of_lt (by omega)
      have hsum : (s.own t + Int64.ofNat d).toInt = (s.own t).toInt + d := by
        rw [Int64.toInt_add, hdint]
        exact Int.bmod_eq_of_le (by omega) (by omega)
      have hexact : tier.add (s.own t) (Int64.ofNat d) = some (s.own t + Int64.ofNat d) :=
        tier.add_exact (by omega) (by omega) (by omega)
      refine ⟨?_, fun s' hs' => ?_⟩
      · rintro _ _ _ ⟨⟩
        rw [hd]
        exact hexact
      · rw [Shared.perform, hd, hexact] at hs'
        obtain rfl := Option.some.inj hs'
        exact ih (hs.update (Nat.le_add_right k d) (by omega)) hdk.2
    · push Not at hadd
      rw [count_cons_of_not_add l t hadd] at hcount
      refine ⟨fun tier item round h => absurd h (hadd tier item round), fun s' hs' => ?_⟩
      exact ih (hs.perform hadd hs') hcount

end Exactness

section Goal

variable {g : Registries} {x : Ident} {plan : List (List Work)} {sched : List ℕ} {x₀ : Int64}

theorem addsUp_of_undisturbed (h : Undisturbed g x plan sched) {c : Label → Int64}
    (hexact : ExactSums g x plan sched x₀ c) : AddsUp g x plan sched x₀ c := by
  intro hfin
  have hcomplete := (complete_iff_serial (fits_trace g x plan sched).busy).mpr h
  exact (addsUp_iff hfin hexact).mpr (by rw [hcomplete]) hfin

/-- When a write falls between the copy of another thread and a write of that copy, an increment by one is lost. -/
theorem exists_lost_increment (hfin : Finished g x plan sched) (hdist : ¬Undisturbed g x plan sched)
    (hlow : -2 ^ 53 < x₀.toInt) (hhigh : x₀.toInt + 2 < 2 ^ 53) :
    ∃ c, ExactSums g x plan sched x₀ c ∧ ¬AddsUp g x plan sched x₀ c := by
  have hbusy := (fits_trace g x plan sched).busy
  have hne := fun h => hdist ((complete_iff_serial hbusy).mp h)
  have hnodup : (run .start ((trace g x plan sched).filterMap access)).written.Nodup := by
    rw [written_of_finished g x plan sched hfin]
    exact nodup_statements g x plan
  obtain ⟨l, -, hl⟩ := exists_missing (G := BitVec 64) (inv_start.run_le hbusy) hne hnodup
  have hexact : ExactSums g x plan sched x₀ (Pi.single l 1) := by
    refine Shared.Within.exact (k := 0) hlow hhigh l ⟨by simp, fun _ => by simp⟩ ?_
    rw [zero_add]
    exact count_trace_le g x plan sched l
  refine ⟨Pi.single l 1, hexact, fun hadds => ?_⟩
  have hval : (fun k => ((Pi.single l (1 : Int64) : Label → Int64) k).toBitVec) = Pi.single l 1 := by
    funext k
    by_cases hk : k = l
    · subst hk
      rw [Pi.single_eq_same, Pi.single_eq_same]
      rfl
    · rw [Pi.single_eq_of_ne hk, Pi.single_eq_of_ne hk]
      rfl
  have hsums := (addsUp_iff hfin hexact).mp hadds
  rw [hval, (hl 1).1, (hl 1).2] at hsums
  exact absurd hsums (by decide)

end Goal

end Fluxa.FlxThread
