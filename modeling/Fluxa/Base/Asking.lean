import Mathlib.Data.List.Basic

/-! Computations that ask whether a key is on a list, and put keys on it while there is room. What they compute depends
on the list through the answers only: a key may be taken off the list as long as nobody asks for it and the room is not
used up. -/

inductive Asking (κ α : Type) where
  | done (a : α)
  | ask (x : κ) (next : Bool → Asking κ α)
  | tell (x : κ) (next : Asking κ α)

namespace Asking

variable {κ α β : Type}

protected def bind : Asking κ α → (α → Asking κ β) → Asking κ β
  | done a, f => f a
  | ask x next, f => ask x fun b => (next b).bind f
  | tell x next, f => tell x (next.bind f)

instance : Monad (Asking κ) where
  pure := done
  bind := Asking.bind

def query (x : κ) : Asking κ Bool := ask x done

def add (x : κ) : Asking κ Unit := tell x (done ())

variable [DecidableEq κ] (cap : ℕ)

/-- What is computed if these keys are on the list, which has room for `cap` keys. -/
def answer : List κ → Asking κ α → α
  | _, done a => a
  | known, ask x next => answer known (next (x ∈ known))
  | known, tell x next => answer (if known.length < cap then known ++ [x] else known) next

/-- The computation does without the key `y`: it asks for it only if it is known anyhow, and leaves room for one more. -/
def Spares (y : κ) : List κ → Asking κ α → Prop
  | _, done _ => True
  | known, ask x next => (x = y → x ∈ known) ∧ Spares y known (next (x ∈ known))
  | known, tell x next => known.length + 1 < cap ∧ Spares y (known ++ [x]) next

instance decidableSpares (y : κ) : ∀ (known : List κ) (m : Asking κ α), Decidable (m.Spares cap y known)
  | _, done _ => .isTrue trivial
  | known, ask x next => @instDecidableAnd _ _ _ (decidableSpares y known (next (x ∈ known)))
  | known, tell x next => @instDecidableAnd _ _ _ (decidableSpares y (known ++ [x]) next)

variable {cap} {y : κ}

/-- Where the key is spared it makes no difference to have it on the list. -/
theorem answer_of_spares {m : Asking κ α} : ∀ {known known' : List κ}, m.Spares cap y known →
    (∀ x, x ∈ known' ↔ x = y ∨ x ∈ known) → known'.length = known.length + 1 →
    m.answer cap known' = m.answer cap known := by
  induction m with
  | done a => exact fun _ _ _ => rfl
  | ask x next ih =>
    intro known known' h hmem hlen
    have hsame : x ∈ known' ↔ x ∈ known := (hmem x).trans (or_iff_right_of_imp h.1)
    simp only [answer, hsame]
    exact ih _ h.2 hmem hlen
  | tell x next ih =>
    intro known known' h hmem hlen
    have hroom : known.length < cap := Nat.lt_of_succ_lt h.1
    simp only [answer, if_pos hroom, if_pos (hlen ▸ h.1)]
    refine ih h.2 (fun z => ?_) (by simp [hlen])
    simp only [List.mem_append, hmem, or_assoc]

end Asking
