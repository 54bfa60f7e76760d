import Mathlib.Data.List.Basic

/-! Runs of a transition function, and what holds at every step of a run. -/

namespace Along

variable {σ ε : Type} (step : σ → ε → σ)

/-- `P` holds of every step of the run, in the state it is made in. -/
def All (P : σ → ε → Prop) : σ → List ε → Prop
  | _, [] => True
  | s, e :: es => P s e ∧ All P (step s e) es

instance All.decidable (P : σ → ε → Prop) [∀ s e, Decidable (P s e)] : (s : σ) → (es : List ε) →
    Decidable (All step P s es)
  | _, [] => inferInstanceAs (Decidable True)
  | s, e :: es =>
    have := All.decidable P (step s e) es
    inferInstanceAs (Decidable (_ ∧ _))

variable {step} {P Q : σ → ε → Prop} {I : σ → Prop}

/-- **The rule for runs all of whose steps meet a condition.** What such steps keep holds at the end. -/
theorem All.invariant (keep : ∀ {s e}, I s → P s e → I (step s e)) {s : σ} {es : List ε} (hs : I s)
    (h : All step P s es) : I (es.foldl step s) := by
  induction es generalizing s with
  | nil => exact hs
  | cons e es ih => exact ih (keep hs h.1) h.2

/-- What follows for each of the steps. -/
theorem All.imp (keep : ∀ {s e}, I s → P s e → I (step s e)) (use : ∀ {s e}, I s → P s e → Q s e) {s : σ}
    {es : List ε} (hs : I s) (h : All step P s es) : All step Q s es := by
  induction es generalizing s with
  | nil => trivial
  | cons e es ih => exact ⟨use hs h.1, ih (keep hs h.1) h.2⟩

end Along
