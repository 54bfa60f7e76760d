import Mathlib.Tactic.Common

/-! Computations that return or report an error: what a sequence of two of them did. -/

namespace Except

variable {ε α β : Type} {r : Except ε α} {k : α → Except ε β}

theorem ok_bind (a : α) (k : α → Except ε β) : (.ok a : Except ε α) >>= k = k a := rfl

theorem bind_eq_ok {b : β} : r >>= k = .ok b ↔ ∃ a, r = .ok a ∧ k a = .ok b := by
  cases r with
  | error e => exact ⟨nofun, nofun⟩
  | ok a => exact ⟨fun h => ⟨a, rfl, h⟩, fun ⟨_, ha, h⟩ => Except.ok.inj ha ▸ h⟩

theorem bind_eq_error {e : ε} : r >>= k = .error e ↔ r = .error e ∨ ∃ a, r = .ok a ∧ k a = .error e := by
  cases r with
  | error g =>
    refine ⟨fun h => .inl (congrArg _ (Except.error.inj h)), ?_⟩
    rintro (h | ⟨_, h, -⟩)
    · exact congrArg _ (Except.error.inj h)
    · exact nomatch h
  | ok a =>
    refine ⟨fun h => .inr ⟨a, rfl, h⟩, ?_⟩
    rintro (h | ⟨_, ha, h⟩)
    · exact nomatch h
    · exact Except.ok.inj ha ▸ h

end Except
