import Fluxa.Base.Prog

/-! Runs all of whose updates meet a condition on the state they are made in, and what follows for the
two ends of such a run. -/

namespace Machine

variable {σ υ ι ρ β : Type} {κ : β → Type} {inner : β → Bool} {α : Type}

/-- Records whether every update so far met the condition. -/
def checker (ok : υ → σ → Bool) : Observer σ υ β Bool where
  apply u s sofar := sofar && ok u s
  note _ sofar := sofar
  exhaust _ sofar := sofar
  enter _ _ sofar := sofar
  leave _ _ t := t.2

/-- Every update of the run meets the condition. -/
def Checked (M : Machine σ υ ι ρ κ inner) (ok : υ → σ → Bool) (n : ℕ) (p : Prog σ υ ι ρ κ inner false α) (s : σ) :
    Prop := ((M.observe (checker ok)).runs n (observed p) (s, true)).2.2 = true

instance (M : Machine σ υ ι ρ κ inner) (ok : υ → σ → Bool) (n : ℕ) (p : Prog σ υ ι ρ κ inner false α) (s : σ) :
    Decidable (M.Checked ok n p s) := inferInstanceAs (Decidable (_ = true))

/-- A relation that such updates keep, and everything else as well. `inside` is for a run that is cut off
within a bracket. -/
structure StepsKeep (M : Machine σ υ ι ρ κ inner) (ok : υ → σ → Bool) (R : σ → σ → Prop) : Prop where
  refl : ∀ s, R s s
  trans : ∀ {s t u}, R s t → R t u → R s u
  apply : ∀ u s, ok u s = true → R s (M.apply u s)
  note : ∀ s, R s (M.note s)
  exhaust : ∀ s, R s (M.exhaust s)
  bracket : ∀ {b s t}, R (M.enter b s) t → R s (M.leave b s t)
  inside : ∀ {b s t}, R (M.enter b s) t → R s t

namespace StepsKeep

variable {M : Machine σ υ ι ρ κ inner} {ok : υ → σ → Bool} {R : σ → σ → Prop}

/-- The relation as far as the record is clean. -/
private def Sofar (R : σ → σ → Prop) (s t : σ × Bool) : Prop := t.2 = true → s.2 = true ∧ R s.1 t.1

private theorem sofar_trans (h : M.StepsKeep ok R) {s t u : σ × Bool} (hst : Sofar R s t) (htu : Sofar R t u) :
    Sofar R s u := by
  intro hu
  obtain ⟨ht, h₂⟩ := htu hu
  obtain ⟨hs, h₁⟩ := hst ht
  exact ⟨hs, h.trans h₁ h₂⟩

private theorem closed (h : M.StepsKeep ok R) :
    (M.observe (checker ok)).Closed (Sofar R) (Sofar R) (fun _ => True) where
  refl s hs := ⟨hs, h.refl s.1⟩
  trans := h.sofar_trans
  deep _ _ := trivial
  apply u s hok := by
    obtain ⟨hs, hu⟩ := Bool.and_eq_true_iff.mp hok
    exact ⟨hs, h.apply u s.1 hu⟩
  note _ hs := ⟨hs, h.note _⟩
  bracket _ _ hst ht := ⟨(hst ht).1, h.bracket (hst ht).2⟩
  opens _ _ _ := trivial
  exhaust _ hs := ⟨hs, h.exhaust _⟩
  later := h.sofar_trans
  inside _ _ hst ht := ⟨(hst ht).1, h.inside (hst ht).2⟩

/-- **The rule for runs of such steps**, also for a run that is cut off. -/
theorem runs (h : M.StepsKeep ok R) {n : ℕ} {p : Prog σ υ ι ρ κ inner false α} {s : σ}
    (hok : M.Checked ok n p s) : R s (M.runs n p s).2 := by
  have hout := h.closed.runs n (observed p) (s, true) fun _ => trivial
  have hplain := runs_observe (M := M) (checker ok) n p (s, true)
  unfold Checked at hok
  rcases hrun : (M.observe (checker ok)).runs n (observed p) (s, true) with ⟨_ | a, t, sofar⟩ <;>
    rw [hrun] at hout hplain hok <;> rw [← hplain] <;> exact (hout hok).2

end StepsKeep

end Machine
