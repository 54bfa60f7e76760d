import Fluxa.Mindful

/-! After an error. A run is watched without being changed: what begins, the errors that set `had_error`
outside `danger` and whether compiled code was running then, the writes after an error, and where the run
was cut off for want of fuel. The tree walker looks at the flag before every node, every round, every call
and most writes, so that an error raised there is the last event; compiled code does not look at it. -/

namespace Fluxa

open Machine

/-- A node, a round or an instruction `began`; `had_error` was set (`raised`, with compiled code running
or not) or taken back (`cleared`) outside `danger`; something was `changed` with the flag set, by an update
that is made without a look at it or not; the run was `cutOff`. -/
inductive Event where
  | began
  | raised (compiled : Bool)
  | cleared
  | changed (unchecked : Bool)
  | cutOff
  deriving DecidableEq

/-- The `danger` blocks and the dispatch loops in progress, and the events, the latest one first. -/
structure Watch where
  dangerNest : ℕ := 0
  vmNest : ℕ := 0
  events : List Event := []

namespace Watch

def record (w : Watch) (e : Event) : Watch := { w with events := e :: w.events }

def recordIf (w : Watch) (p : Prop) [Decidable p] (e : Event) : Watch :=
  { w with events := if p then e :: w.events else w.events }

theorem recordIf_eq (w : Watch) (p : Prop) [Decidable p] (e : Event) : w.recordIf p e = if p then w.record e else w := by
  unfold recordIf
  split <;> rfl

/-- What becomes of `had_error`. -/
def flag (w : Watch) (before after : Bool) : Watch :=
  w.recordIf (w.dangerNest = 0 ∧ before ≠ after) (if after then .raised (decide (0 < w.vmNest)) else .cleared)

/-- What an update after an error changes. -/
def write (w : Watch) (u : Update) (rt : Runtime) : Watch :=
  w.recordIf (w.dangerNest = 0 ∧ rt.hadError ∧ (u.checked ∨ u.unchecked)) (.changed u.unchecked)

def enter (w : Watch) : Bracket → Watch
  | .danger => { w with dangerNest := w.dangerNest + 1 }
  | .vm | .vmFn => { w with vmNest := w.vmNest + 1 }
  | _ => w

/-- No error outside `danger` was raised while compiled code was running, none was taken back, and no unchecked
update was made after one. -/
def Orderly (w : Watch) : Prop := .raised true ∉ w.events ∧ .cleared ∉ w.events ∧ .changed true ∉ w.events

instance (w : Watch) : Decidable w.Orderly := inferInstanceAs (Decidable (_ ∧ _))

theorem Orderly.of_record {w : Watch} {e : Event} (h : (w.record e).Orderly) : w.Orderly :=
  ⟨fun hr => h.1 (List.mem_cons_of_mem e hr), fun hc => h.2.1 (List.mem_cons_of_mem e hc),
    fun hu => h.2.2 (List.mem_cons_of_mem e hu)⟩

end Watch

def watcher : Observer Runtime Update Bracket Watch where
  apply u rt w := (w.write u rt).flag rt.hadError (u.apply rt).hadError
  note _ w := w.record .began
  exhaust _ w := w.record .cutOff
  enter b _ w := w.enter b
  leave _ s t := { t.2 with dangerNest := s.2.dangerNest, vmNest := s.2.vmNest }

/-- `runtimeExec`, watched. -/
def watchedExec (env : Env) (n : ℕ) (program : List Stmt) (stdin : List String) : Option Unit × Runtime × Watch :=
  ((interp env).observe watcher).runs n (observed (runProgram program)) (startState program stdin, {})

/-- An error outside `danger` is the last event, and the run comes to its end with the flag set. -/
def FailsFast (r : Option Unit × Runtime × Watch) : Prop :=
  ∀ later b earlier, r.2.2.events = later ++ .raised b :: earlier →
    later = [] ∧ r.1.isSome ∧ r.2.1.hadError = true

section Invariant

/-- An error is the last event there is, and it was raised in a state in which nothing goes on. -/
structure Stopped (s : Runtime × Watch) : Prop where
  last : .raised false ∉ s.2.events.tail
  error : .raised false ∈ s.2.events → s.1.hadError = true ∧ s.2.dangerNest = 0 ∧ s.2.vmNest = 0
  known : s.1.hadError = true → s.2.dangerNest = 0 → .raised false ∈ s.2.events

def FlagKept (s : Runtime × Watch) : Prop := s.2.Orderly → Stopped s

variable {s t : Runtime × Watch}

theorem FlagKept.record (h : FlagKept s) {e : Event} (he : s.1.hadError = false ∨ 0 < s.2.vmNest)
    (hne : e ≠ .raised false) : FlagKept (s.1, s.2.record e) := by
  intro ho
  obtain ⟨-, herror, hknown⟩ := h ho.of_record
  have hno : .raised false ∉ s.2.events := by
    intro hr
    obtain ⟨h₁, -, h₂⟩ := herror hr
    rcases he with he | he
    · simp [he] at h₁
    · omega
  exact ⟨hno, fun hr => absurd hr (by simp [Watch.record, hno, hne.symm]),
    fun h₁ h₂ => List.mem_cons_of_mem _ (hknown h₁ h₂)⟩

theorem FlagKept.flag (h : FlagKept s) (u : Runtime) : FlagKept (u, s.2.flag s.1.hadError u.hadError) := by
  rw [Watch.flag, Watch.recordIf_eq]
  split
  · next hdiff =>
    obtain ⟨hd, hdiff⟩ := hdiff
    intro ho
    obtain ⟨-, herror, -⟩ := h ho.of_record
    cases hu : u.hadError with
    | false => exact absurd ho.2.1 (by simp [Watch.record, hu])
    | true =>
      have hno : .raised false ∉ s.2.events := fun hr => hdiff (by rw [(herror hr).1, hu])
      have hvm : s.2.vmNest = 0 := by
        by_contra hvm
        exact absurd ho.1 (by simp [Watch.record, hu, Nat.pos_of_ne_zero hvm])
      exact ⟨hno, fun _ => ⟨hu, hd, hvm⟩, fun _ _ => by simp [Watch.record, hvm]⟩
  · next hsame =>
    have hsame (hd : s.2.dangerNest = 0) : s.1.hadError = u.hadError := by
      by_contra hne
      exact hsame ⟨hd, hne⟩
    intro ho
    obtain ⟨hlast, herror, hknown⟩ := h ho
    refine ⟨hlast, fun hr => ?_, fun h₁ h₂ => hknown ((hsame h₂).trans h₁) h₂⟩
    obtain ⟨h₁, h₂, h₃⟩ := herror hr
    exact ⟨hsame h₂ ▸ h₁, h₂, h₃⟩

/-- Compiled code is running. -/
def Deep (s : Runtime × Watch) : Prop := 0 < s.2.vmNest

/-- Where the programs need not look at the flag. -/
def Exempt (s : Runtime × Watch) : Prop := Deep s ∨ s.2.dangerNest ≠ 0 ∨ ¬s.2.Orderly

theorem FlagKept.write {u : Update} (h : FlagKept s)
    (hu : u.checked = true → u.unchecked = true ∨ s.1.hadError = false ∨ Exempt s) : FlagKept (s.1, s.2.write u s.1) := by
  rw [Watch.write, Watch.recordIf_eq]
  split
  · next hw =>
    obtain ⟨hd, herr, hwrites⟩ := hw
    intro ho
    have hs := ho.of_record
    obtain ⟨-, herror, hknown⟩ := h hs
    have hun : u.unchecked ≠ true := fun hun => ho.2.2 (by simp [Watch.record, hun])
    rcases hu (hwrites.resolve_right hun) with hun' | herr' | hdeep | hd' | ho'
    · exact absurd hun' hun
    · rw [herr] at herr'
      cases herr'
    · have hvm := (herror (hknown herr hd)).2.2
      exact absurd hdeep (by simp [Deep, hvm])
    · exact absurd hd hd'
    · exact absurd hs ho'
  · exact h

/-- Events are added. -/
structure Watch.Extends (w w' : Watch) : Prop where
  dangerNest : w'.dangerNest = w.dangerNest
  vmNest : w'.vmNest = w.vmNest
  orderly : w'.Orderly → w.Orderly

/-- What a run keeps: the brackets it is in, and that an error is the last event. -/
structure Keeps (s t : Runtime × Watch) : Prop extends s.2.Extends t.2 where
  flag : FlagKept s → FlagKept t

structure CutOff (s t : Runtime × Watch) : Prop where
  last : t.2.events.head? = some .cutOff
  flag : FlagKept s → FlagKept t

theorem FlagKept.enter (h : FlagKept s) {b : Bracket} (hgo : s.1.hadError = false ∨ 0 < s.2.vmNest) :
    FlagKept (b.enter s.1, s.2.enter b) := by
  intro ho
  have hevents : (s.2.enter b).events = s.2.events := by cases b <;> rfl
  have hs : s.2.Orderly := by
    unfold Watch.Orderly at ho ⊢
    rwa [hevents] at ho
  obtain ⟨hlast, herror, hknown⟩ := h hs
  refine ⟨hevents ▸ hlast, fun hr => ?_, fun h₁ h₂ => ?_⟩
  · obtain ⟨h₁, -, h₂⟩ := herror (hevents ▸ hr)
    rcases hgo with hgo | hgo
    · simp [hgo] at h₁
    · omega
  · rw [hevents]
    cases b with
    | danger => cases h₂
    | _ => exact hknown h₁ h₂

theorem FlagKept.leave {b : Bracket} (h : FlagKept t) (hd : t.2.dangerNest = (s.2.enter b).dangerNest)
    (hv : t.2.vmNest = (s.2.enter b).vmNest) : FlagKept (b.leave s.1 t.1, watcher.leave b s t) := by
  intro ho
  obtain ⟨hlast, herror, hknown⟩ := h ho
  refine ⟨hlast, fun hr => ?_, fun h₁ h₂ => ?_⟩
  · obtain ⟨h₁, h₂, h₃⟩ := herror hr
    rw [hd] at h₂
    rw [hv] at h₃
    cases b with
    | danger | vm | vmFn => simp [Watch.enter] at h₂ h₃
    | loop | call | fallback => exact ⟨h₁, h₂, h₃⟩
  · cases b with
    | danger => cases h₁
    | _ => exact hknown h₁ (hd.trans h₂)

theorem Watch.extends_recordIf (w : Watch) (p : Prop) [Decidable p] (e : Event) : w.Extends (w.recordIf p e) := by
  rw [recordIf_eq]
  split
  · exact ⟨rfl, rfl, .of_record⟩
  · exact ⟨rfl, rfl, id⟩

theorem goesOn {env : Env} (h : ((interp env).observe watcher).halt s = none ∨ Deep s) :
    s.1.hadError = false ∨ 0 < s.2.vmNest :=
  h.imp_left fun h => by simpa [observe, interp] using h

theorem goesOn_of_bracket {env : Env} {b : Bracket}
    (hguard : ((interp env).observe watcher).guarded b → ((interp env).observe watcher).halt s = none)
    (hin : b.inner → Deep s) : s.1.hadError = false ∨ 0 < s.2.vmNest := by
  have hb : b.guarded ∨ b.inner := by cases b <;> simp [Bracket.guarded, Bracket.inner]
  rcases hb with hb | hb
  · exact goesOn (.inl (hguard hb))
  · exact .inr (hin hb)

theorem Watch.Extends.trans {w w' w'' : Watch} (h : w.Extends w') (h' : w'.Extends w'') : w.Extends w'' :=
  ⟨h'.dangerNest.trans h.dangerNest, h'.vmNest.trans h.vmNest, h.orderly ∘ h'.orderly⟩

theorem Keeps.deep (h : Keeps s t) (hs : Deep s) : Deep t := by
  unfold Deep at hs ⊢
  rwa [h.vmNest]

/-- An unchecked update after an error is one that the condition excludes. -/
theorem exempt_of_unchecked {u : Update} (hu : u.unchecked = true) (herr : s.1.hadError = true) :
    Exempt (u.apply s.1, (s.2.write u s.1).flag s.1.hadError (u.apply s.1).hadError) := by
  have hflag : (s.2.write u s.1).Extends ((s.2.write u s.1).flag s.1.hadError (u.apply s.1).hadError) :=
    Watch.extends_recordIf ..
  by_cases hd : s.2.dangerNest = 0
  · refine .inr (.inr fun ho => ?_)
    have hw := hflag.orderly ho
    rw [Watch.write, Watch.recordIf_eq, if_pos ⟨hd, herr, .inr hu⟩, hu] at hw
    exact hw.2.2 (List.mem_cons_self ..)
  · refine .inr (.inl ?_)
    rwa [hflag.dangerNest]

theorem minded_watcher (env : Env) :
    ((interp env).observe watcher).Minded (·.checked = true) (·.unchecked = true) Keeps CutOff Deep Exempt where
  refl s := ⟨⟨rfl, rfl, id⟩, id⟩
  trans h h' := ⟨h.1.trans h'.1, h'.2 ∘ h.2⟩
  deep := Keeps.deep
  exempt h hs := hs.imp h.deep (.imp (h.dangerNest ▸ id) (· ∘ h.orderly))
  exempt_of_deep := .inl
  exempt_of_stopped {u s} hu hs := exempt_of_unchecked hu (by simpa [observe, interp] using hs)
  apply {u s} hu := by
    refine ⟨(Watch.extends_recordIf ..).trans (Watch.extends_recordIf ..), fun h => (h.write fun hc => ?_).flag _⟩
    exact (hu hc).imp_right (.imp_left fun h => by simpa [observe, interp] using h)
  step i s hs := .inr (careful_observed watcher _ (minds_step i (by simpa [observe, interp] using hs)))
  body b j s hb hs := .inr (careful_observed watcher _ (minds_round b j hb (by simpa [observe, interp] using hs)))
  note h := ⟨⟨rfl, rfl, .of_record⟩, fun hs => hs.record (goesOn h) (by simp)⟩
  bracket {b s t} hguard hin h := by
    refine ⟨⟨rfl, rfl, fun ho => ?_⟩,
      fun hs => (h.flag (hs.enter (goesOn_of_bracket hguard hin))).leave h.dangerNest h.vmNest⟩
    have hs : (s.2.enter b).Orderly := h.orderly ho
    cases b <;> exact hs
  opens {b s} _ hin hb := by
    cases b with
    | vm | vmFn => exact Nat.succ_pos _
    | fallback inst => exact hin rfl
    | loop | danger | call => simp [observe, interp, Bracket.opens, Bracket.checked] at hb
  exhaust h := ⟨rfl, fun hs => hs.record (goesOn h) (by simp)⟩
  later h h' := ⟨h'.1, h'.2 ∘ h.2⟩
  inside hguard hin h := ⟨h.1, fun hs => h.2 (hs.enter (goesOn_of_bracket hguard hin))⟩

end Invariant

/-- If every error outside `danger` is raised while no compiled code is running, none is taken back and no unchecked
update is made after one, the program fails fast: **after the error no statement, no round of a loop and no call
begins, nothing is written, and the run ends.** All other updates leave the variables, the fields, the elements and
the pool as they are. -/
theorem watchedExec_failsFast (env : Env) (n : ℕ) (program : List Stmt) (stdin : List String)
    (h : (watchedExec env n program stdin).2.2.Orderly) : FailsFast (watchedExec env n program stdin) ∧
      ∀ (u : Update) rt, u.checked = false → u.unchecked = false → u.Spares rt (u.apply rt) := by
  refine ⟨?_, fun u rt hc hu => Update.spares_apply hc hu rt⟩
  have hout := (minded_watcher env).runs n (observed (runProgram program)) (startState program stdin, {})
    (by simp) (.inr (careful_observed watcher _ (mindful_runProgram program _)))
  have hstart : FlagKept (startState program stdin, {}) := fun _ => ⟨by simp, by simp, nofun⟩
  change Closed.Outcome _ _ _ (watchedExec env n program stdin) at hout
  intro later b earlier hevents
  have hb : b = false := by
    cases b with
    | false => rfl
    | true => exact absurd h.1 (by simp [hevents])
  subst hb
  have hfirst {w : Watch} (hw : w.events = later ++ .raised false :: earlier)
      (hlast : .raised false ∉ w.events.tail) : later = [] := by
    cases later with
    | nil => rfl
    | cons e later => exact absurd hlast (by simp [hw])
  rcases hr : watchedExec env n program stdin with ⟨_ | a, t⟩ <;> rw [hr] at hout h hevents <;>
    replace hevents : t.2.events = later ++ .raised false :: earlier := hevents
  · obtain rfl := hfirst hevents (hout.flag hstart h).last
    have hcut := hout.last
    simp [hevents] at hcut
  · obtain ⟨hlast, herror, -⟩ := hout.flag hstart h
    exact ⟨hfirst hevents hlast, rfl, (herror (by simp [hevents])).1⟩

/-- `int x = 1 / 0` and `int y = 2`. -/
def failingProgram : List Stmt :=
  [.varDecl .int "x" (.binary .div (.intLit 1) (.intLit 0)) false ⟨some 0, false⟩,
   .varDecl .int "y" (.intLit 2) false ⟨some 1, false⟩]

theorem failingProgram_failsFast : .raised false ∈ (watchedExec .plain 10 failingProgram []).2.2.events ∧
    FailsFast (watchedExec .plain 10 failingProgram []) :=
  ⟨by decide +kernel, (watchedExec_failsFast .plain 10 failingProgram [] (by decide +kernel)).1⟩

/-- `int i = 0` and `while i < 3 { i = i + 1  missing() }`. -/
def missingProgram : List Stmt :=
  [.varDecl .int "i" (.intLit 0) false {},
   .whileStmt (.binary .lt (.identifier "i" {}) (.intLit 3))
    [.assign "i" (.binary .add (.identifier "i" {}) (.intLit 1)) {}, .exprStmt (.funcCall "missing" [])]]

/-- `Block B { int x = 1 / 0  int arr t[2] = 5 }`. -/
def blockProgram : List Stmt :=
  [.blockDecl "B" [.varDecl .int "x" (.binary .div (.intLit 1) (.intLit 0)) false {},
    .arrDecl .int "t" 2 (.default (.intLit 5)) false]]

/-- The first call of an undefined function sets `had_error`. The compiled loop runs all its rounds and
leaves three in `i`, where the tree walker stops with one. And a Block is made with the members behind the one
that failed. -/
theorem compiled_loop_runs_on :
    (resolverRun 16 missingProgram).map (fun p =>
      let run (env : Env) := watchedExec env 40 p []
      let i (env : Env) := ((run env).2.1.stack 0).int?
      ((run .plain).2.1.hadError, i .plain, i { Env.plain with compileLoops := false },
        decide (.raised true ∈ (run .plain).2.2.events), (run .plain).2.2.events.head?)) =
      some (true, some 3, some 1, true, some (.changed true)) ∧
    (watchedExec .plain 10 blockProgram []).2.2.events =
      [.changed true, .changed false, .changed true, .raised false, .began, .began, .began, .began] := by
  decide +kernel

end Fluxa
