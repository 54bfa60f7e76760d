import Mathlib.Order.Defs.PartialOrder
import Mathlib.Order.Basic

/-! Computations that carry a state and may be cut off. A computation that runs out of fuel, or meets
an operation without a defined result, is cut off; unlike in `StateT σ Option` the state it had reached
is kept, so that a statement about every state of a run covers runs that do not end. -/

/-- `none` is a computation that was cut off. -/
def Cutoff (σ α : Type) := σ → Option α × σ

namespace Cutoff

variable {σ α β : Type}

protected def pure (a : α) : Cutoff σ α := fun s => (some a, s)

protected def bind (m : Cutoff σ α) (f : α → Cutoff σ β) : Cutoff σ β := fun s =>
  match m s with
  | (some a, s') => f a s'
  | (none, s') => (none, s')

instance : Monad (Cutoff σ) where
  pure := Cutoff.pure
  bind := Cutoff.bind

def cut : Cutoff σ α := fun s => (none, s)

def get : Cutoff σ σ := fun s => (some s, s)

def modify (f : σ → σ) : Cutoff σ Unit := fun s => (some (), f s)

section Equations

variable (s : σ)

@[simp] theorem pure_apply (a : α) : (pure a : Cutoff σ α) s = (some a, s) := rfl

theorem bind_apply (m : Cutoff σ α) (f : α → Cutoff σ β) :
    (m >>= f) s = match m s with
      | (some a, s') => f a s'
      | (none, s') => (none, s') := rfl

variable {m : Cutoff σ α} {f : α → Cutoff σ β} {s : σ}

theorem bind_of_some {s' : σ} {a : α} (h : m s = (some a, s')) : (m >>= f) s = f a s' := by
  rw [bind_apply, h]

theorem bind_of_fst {a : α} (h : (m s).1 = some a) : (m >>= f) s = f a (m s).2 := bind_of_some (Prod.ext h rfl)

theorem bind_of_none {s' : σ} (h : m s = (none, s')) : (m >>= f) s = (none, s') := by
  rw [bind_apply, h]

theorem exists_of_bind {b : β} {t : σ} (h : (m >>= f) s = (some b, t)) :
    ∃ a s', m s = (some a, s') ∧ f a s' = (some b, t) := by
  rcases hm : m s with ⟨_ | a, s'⟩
  · rw [bind_of_none hm] at h
    cases h
  · exact ⟨a, s', rfl, (bind_of_some hm).symm.trans h⟩

end Equations

/-- The second computation has every result of the first. -/
def Extends (f g : Cutoff σ α) : Prop := ∀ ⦃s a t⦄, f s = (some a, t) → g s = (some a, t)

theorem Extends.refl (f : Cutoff σ α) : f.Extends f := fun _ _ _ h => h

theorem Extends.trans {f g h : Cutoff σ α} (hf : f.Extends g) (hg : g.Extends h) : f.Extends h :=
  fun _ _ _ e => hg (hf e)

section Ensures

variable {sure : Prop} {m : Cutoff σ α} {f : α → Cutoff σ β} {s : σ} {Q Q' : α → σ → Prop} {R : β → σ → Prop}

/-- A result is as it should be, and where it is sure that there is one, the computation is not cut off. -/
def Ensures (sure : Prop) (m : Cutoff σ α) (s : σ) (Q : α → σ → Prop) : Prop :=
  match m s with
  | (some a, s') => Q a s'
  | (none, _) => ¬sure

theorem ensures_pure {a : α} (h : Q a s) : Ensures sure (pure a) s Q := h

theorem ensures_cut (h : ¬sure) : Ensures sure cut s Q := h

theorem ensures_of_none (h : (m s).1 = none) : Ensures False m s Q := by
  rcases hm : m s with ⟨_ | a, s'⟩
  · rw [Ensures, hm]
    exact id
  · rw [hm] at h
    cases h

theorem ensures_modify {f : σ → σ} {Q : Unit → σ → Prop} (h : Q () (f s)) : Ensures sure (modify f) s Q := h

theorem ensures_get_bind {f : σ → Cutoff σ β} (h : Ensures sure (f s) s R) : Ensures sure (get >>= f) s R := h

theorem ensures_modify_bind {g : σ → σ} {f : Unit → Cutoff σ β} (h : Ensures sure (f ()) (g s) R) :
    Ensures sure (modify g >>= f) s R := h

theorem Ensures.bind (h : Ensures sure m s Q) (hf : ∀ a s', Q a s' → Ensures sure (f a) s' R) :
    Ensures sure (m >>= f) s R := by
  unfold Ensures at h ⊢
  rw [bind_apply]
  rcases hm : m s with ⟨_ | a, s'⟩ <;> rw [hm] at h
  · exact h
  · exact hf a s' h

theorem Ensures.mono (h : Ensures sure m s Q) (hQ : ∀ a s', Q a s' → Q' a s') : Ensures sure m s Q' := by
  unfold Ensures at h ⊢
  rcases hm : m s with ⟨_ | a, s'⟩ <;> rw [hm] at h
  · exact h
  · exact hQ a s' h

theorem Ensures.of_eq {a : α} {s' : σ} (h : Ensures sure m s Q) (hm : m s = (some a, s')) : Q a s' := by
  unfold Ensures at h
  rwa [hm] at h

theorem Ensures.exists (h : Ensures sure m s Q) (hsure : sure) : ∃ a s', m s = (some a, s') ∧ Q a s' := by
  unfold Ensures at h
  rcases hm : m s with ⟨_ | a, s'⟩ <;> rw [hm] at h
  · exact absurd hsure h
  · exact ⟨a, s', rfl, h⟩

end Ensures

instance : LawfulMonad (Cutoff σ) := by
  refine LawfulMonad.mk' _ ?_ ?_ ?_
  · intro α m
    funext s
    show Cutoff.bind m _ s = m s
    unfold Cutoff.bind
    rcases m s with ⟨_ | a, s'⟩ <;> rfl
  · intros
    rfl
  · intro α β γ m f g
    funext s
    simp only [bind_apply]
    rcases m s with ⟨_ | a, s'⟩ <;> rfl

end Cutoff
