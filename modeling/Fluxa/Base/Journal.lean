import Fluxa.Base.Prog

/-! The journal of a run: the updates it made, each with the state it was made in, the last one first.
The rule for journals relates both ends of a run to what was written in between. -/

namespace Machine

variable {σ υ ι ρ β : Type} {κ : β → Type} {inner : β → Bool} {m : Bool} {α : Type}

/-- Writes every update down. -/
def journaler : Observer σ υ β (List (υ × σ)) where
  apply u s log := (u, s) :: log
  note _ log := log
  exhaust _ log := log
  enter _ _ log := log
  leave _ _ t := t.2

def journal (M : Machine σ υ ι ρ κ inner) (n : ℕ) (p : Prog σ υ ι ρ κ inner m α) (s : σ) : List (υ × σ) :=
  ((M.observe journaler).runs n (observed p) (s, [])).2.2

/-- What holds of a stretch of a run with the updates made in it, when it holds of each single step.
`inside` is for a run that is cut off within a bracket. -/
structure Journaled (M : Machine σ υ ι ρ κ inner) (P : σ → List (υ × σ) → σ → Prop) : Prop where
  nil : ∀ s, P s [] s
  append : ∀ {s t u l l'}, P s l t → P t l' u → P s (l' ++ l) u
  apply : ∀ u s, P s [(u, s)] (M.apply u s)
  note : ∀ s, P s [] (M.note s)
  exhaust : ∀ s, P s [] (M.exhaust s)
  bracket : ∀ {b s t l}, P (M.enter b s) l t → P s l (M.leave b s t)
  inside : ∀ {b s t l}, P (M.enter b s) l t → P s l t

namespace Journaled

variable {M : Machine σ υ ι ρ κ inner} {P : σ → List (υ × σ) → σ → Prop}

/-- The journal is continued by a stretch that `P` holds of. -/
private def Continued (P : σ → List (υ × σ) → σ → Prop) (s t : σ × List (υ × σ)) : Prop :=
  ∃ l, t.2 = l ++ s.2 ∧ P s.1 l t.1

private theorem continued_trans (h : M.Journaled P) {s t u : σ × List (υ × σ)} (hst : Continued P s t)
    (htu : Continued P t u) : Continued P s u := by
  obtain ⟨l, hl, h₁⟩ := hst
  obtain ⟨l', hl', h₂⟩ := htu
  refine ⟨l' ++ l, ?_, h.append h₁ h₂⟩
  calc u.2 = l' ++ t.2 := hl'
    _ = l' ++ (l ++ s.2) := by rw [hl]
    _ = l' ++ l ++ s.2 := (List.append_assoc ..).symm

private theorem closed_continued (h : M.Journaled P) :
    (M.observe journaler).Closed (Continued P) (Continued P) (fun _ => True) where
  refl s := ⟨[], rfl, h.nil s.1⟩
  trans := h.continued_trans
  deep _ _ := trivial
  apply u s := ⟨[(u, s.1)], rfl, h.apply u s.1⟩
  note _ := ⟨[], rfl, h.note _⟩
  bracket _ _ hst := by
    obtain ⟨l, hl, hP⟩ := hst
    exact ⟨l, hl, h.bracket hP⟩
  opens _ _ _ := trivial
  exhaust _ := ⟨[], rfl, h.exhaust _⟩
  later := h.continued_trans
  inside _ _ hst := by
    obtain ⟨l, hl, hP⟩ := hst
    exact ⟨l, hl, h.inside hP⟩

/-- **The rule for journals**, also of a run that is cut off. -/
theorem runs (h : M.Journaled P) (n : ℕ) (p : Prog σ υ ι ρ κ inner m α) (s : σ) :
    P s (M.journal n p s) (M.runs n p s).2 := by
  have hout := h.closed_continued.runs n (observed p) (s, []) fun _ => trivial
  have hplain := runs_observe (M := M) journaler n p (s, [])
  have hends : Continued P (s, []) ((M.observe journaler).runs n (observed p) (s, [])).2 := by
    rcases hrun : (M.observe journaler).runs n (observed p) (s, []) with ⟨_ | a, t⟩ <;> rw [hrun] at hout <;> exact hout
  obtain ⟨l, hl, hP⟩ := hends
  rw [List.append_nil] at hl
  rw [← hplain, journal, hl]
  exact hP

end Journaled

/-- A relation that every step keeps. -/
structure Advances (M : Machine σ υ ι ρ κ inner) (R : σ → σ → Prop) : Prop where
  refl : ∀ s, R s s
  trans : ∀ {s t u}, R s t → R t u → R s u
  apply : ∀ u s, R s (M.apply u s)
  note : ∀ s, R s (M.note s)
  exhaust : ∀ s, R s (M.exhaust s)
  enter : ∀ b s, R s (M.enter b s)
  leave : ∀ b s t, R t (M.leave b s t)

/-- It relates every update of the journal to the two ends of the run. -/
theorem Advances.journaled {M : Machine σ υ ι ρ κ inner} {R : σ → σ → Prop} (h : M.Advances R) :
    M.Journaled fun s l t => R s t ∧ ∀ e ∈ l, R s e.2 ∧ R (M.apply e.1 e.2) t where
  nil s := ⟨h.refl s, nofun⟩
  append {s t u l l'} h₁ h₂ := by
    refine ⟨h.trans h₁.1 h₂.1, fun e he => ?_⟩
    rcases List.mem_append.mp he with he | he
    · exact ⟨h.trans h₁.1 (h₂.2 e he).1, (h₂.2 e he).2⟩
    · exact ⟨(h₁.2 e he).1, h.trans (h₁.2 e he).2 h₂.1⟩
  apply u s := by
    refine ⟨h.apply u s, fun e he => ?_⟩
    obtain rfl := List.mem_singleton.mp he
    exact ⟨h.refl s, h.refl _⟩
  note s := ⟨h.note s, nofun⟩
  exhaust s := ⟨h.exhaust s, nofun⟩
  bracket {b s t l} hl := by
    refine ⟨h.trans (h.enter b s) (h.trans hl.1 (h.leave b s t)), fun e he => ?_⟩
    exact ⟨h.trans (h.enter b s) (hl.2 e he).1, h.trans (hl.2 e he).2 (h.leave b s t)⟩
  inside {b s t l} hl := by
    refine ⟨h.trans (h.enter b s) hl.1, fun e he => ?_⟩
    exact ⟨h.trans (h.enter b s) (hl.2 e he).1, (hl.2 e he).2⟩

end Machine
