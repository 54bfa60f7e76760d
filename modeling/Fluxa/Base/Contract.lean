import Fluxa.Base.Prog

/-! Contracts between the programs of a machine. `Machine.Closed` is for facts that every single update
keeps. A contract is for facts that hold because of where programs get their data from, or because of what
they look at first: each program is checked once, against what it may assume of the state, of the results of
its calls and of the procedures it may call. Part of the invariant can be indexed by a value that a program
may change on its way, if it puts it back. -/

/-- `inv g` is what holds of the state, `res` of results; `proc` are the procedures that may be called
and `loop` the loops that may be run. With `g` only the brackets in `may g` are entered. -/
structure Contract (γ σ ι ρ : Type) {β : Type} (κ : β → Type) where
  inv : γ → σ → Prop
  res : ρ → Prop
  proc : ι → Prop
  loop : (b : β) → κ b → Prop
  may : γ → β → Prop

variable {γ σ υ ι ρ β τ : Type} {κ : β → Type} {inner : β → Bool} {m : Bool} {α δ : Type}

namespace Contract

def Known (C : Contract γ σ ι ρ κ) (s : σ) : Prop := ∃ g, C.inv g s

/-- For a machine that is observed: the contract, and something about the record. -/
def recorded (C : Contract γ σ ι ρ κ) (I : σ × τ → Prop) : Contract γ (σ × τ) ι ρ κ :=
  { C with inv := fun g s => C.inv g s.1 ∧ I s }

end Contract

namespace Prog

/-- The program, begun with `g`, keeps the contract; it ends with `g'` and a result with `post`. -/
def Abides (M : Machine σ υ ι ρ κ inner) (C : Contract γ σ ι ρ κ) (g' : γ) (post : α → Prop) :
    Prog σ υ ι ρ κ inner m α → γ → Prop
  | .pure a, g => g = g' ∧ post a
  | .get k, g => ∀ s, C.inv g s → (k s).Abides M C g' post g
  | .update u k, g => ∃ g₁, (∀ s, C.inv g s → C.inv g₁ (M.apply u s)) ∧ k.Abides M C g' post g₁
  | .call i k, g => C.proc i ∧ ∀ r, C.res r → (k r).Abides M C g' post g
  | .loop b _ j k, g => (C.may g b ∧ C.loop b j) ∧ ∀ r, C.res r → (k r).Abides M C g' post g
  | .cut k, g => ∀ r, C.res r → (k r).Abides M C g' post g

/-- A program that puts everything back. -/
def Obeys (M : Machine σ υ ι ρ κ inner) (C : Contract γ σ ι ρ κ) (post : α → Prop)
    (p : Prog σ υ ι ρ κ inner m α) : Prop := ∀ g, p.Abides M C g post g

section Rules

variable {M : Machine σ υ ι ρ κ inner} {C : Contract γ σ ι ρ κ} {post : α → Prop} {q : δ → Prop}
  {p : Prog σ υ ι ρ κ inner m α} {f : α → Prog σ υ ι ρ κ inner m δ} {g g' g'' : γ}

theorem Abides.bind (hp : p.Abides M C g' post g) (hf : ∀ a, post a → (f a).Abides M C g'' q g') :
    (p >>= f).Abides M C g'' q g := by
  change (p.bind f).Abides M C g'' q g
  induction p generalizing g with
  | pure a =>
    obtain ⟨rfl, ha⟩ := hp
    exact hf a ha
  | get k ih => exact fun s hs => ih s (hp s hs)
  | update u k ih =>
    obtain ⟨g₁, hu, hk⟩ := hp
    exact ⟨g₁, hu, ih hk⟩
  | call i k ih | loop b h j k ih => exact ⟨hp.1, fun r hr => ih r (hp.2 r hr)⟩
  | cut k ih => exact fun r hr => ih r (hp r hr)

theorem abides_modify {u : υ} (h : ∀ s, C.inv g s → C.inv g' (M.apply u s)) :
    (modify u : Prog σ υ ι ρ κ inner m Unit).Abides M C g' (fun _ => True) g := ⟨g', h, rfl, trivial⟩

/-- Updates keep what is said about the record, too. -/
theorem Abides.observed {O : Machine.Observer σ υ β τ} {I : σ × τ → Prop}
    (hI : ∀ u s, I s → I ((M.observe O).apply u s)) (hp : p.Abides M C g' post g) :
    (Machine.observed p).Abides (M.observe O) (C.recorded I) g' post g := by
  induction p generalizing g with
  | pure a => exact hp
  | get k ih => exact fun s hs => ih s.1 (hp s.1 hs.1)
  | update u k ih =>
    obtain ⟨g₁, hu, hk⟩ := hp
    exact ⟨g₁, fun s hs => ⟨hu s.1 hs.1, hI u s hs.2⟩, ih hk⟩
  | call i k ih | loop b h j k ih => exact ⟨hp.1, fun r hr => ih r (hp.2 r hr)⟩
  | cut k ih => exact fun r hr => ih r (hp r hr)

end Rules

end Prog

namespace Machine

/-- The machine keeps the contract: its procedures and the bodies of its loops do, and nothing else
breaks it. -/
structure Honours (M : Machine σ υ ι ρ κ inner) (C : Contract γ σ ι ρ κ) : Prop where
  step : ∀ i, C.proc i → (M.step i).Obeys M C C.res
  body : ∀ b j, C.loop b j → (M.body b j).Obeys M C (Sum.elim (C.loop b) C.res)
  halt : ∀ {s r}, M.halt s = some r → C.res r
  note : ∀ {g s}, C.inv g s → C.inv g (M.note s)
  exhaust : ∀ {g s}, C.inv g s → C.inv g (M.exhaust s)
  bracket : ∀ b {g s}, C.may g b → C.inv g s →
    ∃ g', C.inv g' (M.enter b s) ∧ ∀ t, C.inv g' t → C.inv g (M.leave b s t)

namespace Honours

variable {M : Machine σ υ ι ρ κ inner} {C : Contract γ σ ι ρ κ}

/-- What the contract says of an outcome. -/
def Outcome (C : Contract γ σ ι ρ κ) (g : γ) (post : α → Prop) : Option α × σ → Prop
  | (some a, t) => C.inv g t ∧ post a
  | (none, t) => C.Known t

variable {g : γ} {s : σ} {p : Prog σ υ ι ρ κ inner m α} {post : α → Prop}

theorem run (h : M.Honours C) {c : ι → Cutoff σ ρ} {l : (b : β) → κ b → Cutoff σ ρ}
    (hc : ∀ i g s, C.proc i → C.inv g s → Outcome C g C.res (c i s))
    (hl : ∀ b j g s, C.loop b j → C.inv g s → Outcome C g C.res (l b j s))
    {g' : γ} (hp : p.Abides M C g' post g)
    (hs : C.inv g s) : Outcome C g' post (p.run M c l s) := by
  induction p generalizing g s with
  | pure a =>
    obtain ⟨rfl, ha⟩ := hp
    exact ⟨hs, ha⟩
  | get k ih => exact ih s (hp s hs) hs
  | update u k ih =>
    obtain ⟨g₁, hu, hk⟩ := hp
    exact ih hk (hu s hs)
  | call i k ih =>
    have hi := hc i g s hp.1 hs
    simp only [Prog.run]
    rcases hcs : c i s with ⟨_ | r, t⟩ <;> rw [hcs] at hi
    · exact hi
    · exact ih r (hp.2 r hi.2) hi.1
  | loop b hb j k ih =>
    simp only [Prog.run]
    rcases hg : (if M.guarded b then M.halt s else none) with _ | r
    · obtain ⟨g₁, hin, hout⟩ := h.bracket b hp.1.1 hs
      have hj := hl b j g₁ (M.enter b s) hp.1.2 hin
      rcases hls : l b j (M.enter b s) with ⟨_ | r, t⟩ <;> rw [hls] at hj
      · exact hj
      · exact ih r (hp.2 r hj.2) (hout t hj.1)
    · exact ih r (hp.2 r (h.halt (Option.ite_none_right_eq_some.mp hg).2)) hs
  | cut k ih =>
    simp only [Prog.run]
    rcases hg : (if m then none else M.halt s) with _ | r
    · exact ⟨g, h.exhaust hs⟩
    · exact ih r (hp r (h.halt (Option.ite_none_left_eq_some.mp hg).2)) hs

/-- **The contract rule.** -/
theorem exec (h : M.Honours C) (n : ℕ) :
    (∀ i g s, C.proc i → C.inv g s → Outcome C g C.res (M.proc n i s)) ∧
      ∀ b j g s, C.loop b j → C.inv g s → Outcome C g C.res (M.iter n b j s) := by
  induction n with
  | zero =>
    constructor
    · intro i g s _ hs
      rw [proc_zero]
      rcases hh : M.halt s with _ | r
      · exact ⟨g, h.exhaust hs⟩
      · exact ⟨hs, h.halt hh⟩
    · intro b j g s _ hs
      rw [iter_zero]
      rcases hh : (if M.checked b then M.halt s else none) with _ | r
      · exact ⟨g, h.exhaust hs⟩
      · exact ⟨hs, h.halt (Option.ite_none_right_eq_some.mp hh).2⟩
  | succ n ih =>
    constructor
    · intro i g s hi hs
      rw [proc_succ]
      rcases hh : M.halt s with _ | r
      · exact h.run ih.1 ih.2 (h.step i hi g) (h.note hs)
      · exact ⟨hs, h.halt hh⟩
    · intro b j g s hj hs
      rw [iter_succ]
      rcases hh : (if M.checked b then M.halt s else none) with _ | r
      · have hrun := h.run ih.1 ih.2 (h.body b j hj g) (h.note hs)
        change Outcome C g _ (M.runs n (M.body b j) (M.note s)) at hrun
        rcases hr : M.runs n (M.body b j) (M.note s) with ⟨_ | (j' | r), t⟩ <;> rw [hr] at hrun
        · exact hrun
        · exact ih.2 b j' g t hrun.2 hrun.1
        · exact hrun
      · exact ⟨hs, h.halt (Option.ite_none_right_eq_some.mp hh).2⟩

theorem runs (h : M.Honours C) (n : ℕ) (hp : p.Obeys M C post) (hs : C.inv g s) : Outcome C g post (M.runs n p s) :=
  h.run (h.exec n).1 (h.exec n).2 (hp g) hs

/-- Also of a run that was cut off something is known. -/
theorem known (h : M.Honours C) (n : ℕ) (hp : p.Obeys M C post) (hs : C.inv g s) : C.Known (M.runs n p s).2 := by
  have hout := h.runs n hp hs
  rcases hrun : M.runs n p s with ⟨_ | a, t⟩ <;> rw [hrun] at hout
  · exact hout
  · exact ⟨g, hout.1⟩

theorem of_runs (h : M.Honours C) {t : σ} {a : α}
    (hp : p.Obeys M C post) (hs : C.inv g s) (hrun : M.Runs p s a t) : C.inv g t ∧ post a := by
  obtain ⟨n, hn⟩ := hrun
  have hout := h.runs n hp hs
  rwa [hn] at hout

/-- A procedure that returns has put everything back. -/
theorem calls (h : M.Honours C) {i : ι} {t : σ} {r : ρ} (hi : C.proc i) (hs : C.inv g s)
    (hcall : M.Calls i s r t) : C.inv g t ∧ C.res r := by
  obtain ⟨n, hn⟩ := hcall
  have hout := (h.exec n).1 i g s hi hs
  rwa [hn] at hout

end Honours

end Machine
