import Fluxa.BigStep
import Fluxa.Heap

/-! What no update touches: the mode of the run, the depth of calls and of `danger`. Only brackets change
the two depths, and they put them back. -/

namespace Fluxa

open Machine

/-- Brackets put the depths back, whatever the depth of `danger` was. -/
def KeepsCalm (s t : Runtime) : Prop :=
  t.mode = s.mode ∧ t.dryRun = s.dryRun ∧ t.callDepth = s.callDepth ∧ (s.dangerDepth = 0 → t.dangerDepth = 0)

theorem closed_keepsCalm (env : Env) : (interp env).Closed KeepsCalm (fun _ _ => True) (fun _ => True) where
  refl s := ⟨rfl, rfl, rfl, id⟩
  trans h h' := ⟨h'.1.trans h.1, h'.2.1.trans h.2.1, h'.2.2.1.trans h.2.2.1, h'.2.2.2 ∘ h.2.2.2⟩
  deep _ _ := trivial
  apply u s := by
    have h := u.fixed_apply s
    simp only [Runtime.fixed, Runtime.Fixed.mk.injEq] at h
    exact ⟨h.1, h.2.1, h.2.2.1, h.2.2.2.trans⟩
  note _ := ⟨rfl, rfl, rfl, id⟩
  bracket {b s t} _ _ h := by
    cases b with
    | danger => exact ⟨h.1, h.2.1, h.2.2.1, fun _ => rfl⟩
    | call | fallback => exact ⟨h.1, h.2.1, rfl, h.2.2.2⟩
    | loop | vm | vmFn => exact h
  opens _ _ _ := trivial
  exhaust _ := trivial
  later _ _ := trivial
  inside _ _ _ := trivial

theorem keepsCalm_of_runs {env : Env} {α : Type} {p : RtProg false α} {s t : Runtime} {a : α}
    (h : (interp env).Runs p s a t) : KeepsCalm s t := by
  obtain ⟨n, hn⟩ := h
  have hout := (closed_keepsCalm env).runs n p s fun _ => trivial
  rwa [hn] at hout

end Fluxa
