import Mathlib.Logic.Function.Basic
import Mathlib.Data.List.Basic

/-! Values that are written with names. The places of the names are left open: a naming says how each occurrence is
spelled, and the value is what comes out. A value is built so that every occurrence can be seen in it, so two namings
give the same value exactly if they spell every occurrence alike. -/

/-- `text` fills the names in, and `names` lists their occurrences. -/
structure Written (ο ν α : Type) where
  text : (ο → ν) → α
  names : List ο
  faithful : ∀ f g, text f = text g ↔ ∀ o ∈ names, f o = g o

namespace Written

variable {ο ν α β γ : Type}

def const (a : α) : Written ο ν α := ⟨fun _ => a, [], by simp⟩

def name (o : ο) : Written ο ν ν := ⟨fun f => f o, [o], by simp⟩

/-- A part of a larger value, which shows all of it. -/
def map (c : α → β) (hc : c.Injective) (w : Written ο ν α) : Written ο ν β :=
  ⟨fun f => c (w.text f), w.names, fun f g => by rw [hc.eq_iff, w.faithful]⟩

def map₂ (c : α → β → γ) (hc : Function.Injective2 c) (v : Written ο ν α) (w : Written ο ν β) : Written ο ν γ where
  text f := c (v.text f) (w.text f)
  names := v.names ++ w.names
  faithful f g := by rw [hc.eq_iff, v.faithful, w.faithful, List.forall_mem_append]

def pair (v : Written ο ν α) (w : Written ο ν β) : Written ο ν (α × β) :=
  map₂ Prod.mk (fun _ _ _ _ => Prod.mk.inj) v w

def list : List (Written ο ν α) → Written ο ν (List α)
  | [] => const []
  | w :: ws => map₂ List.cons (fun _ _ _ _ h => List.cons.inj h) w (list ws)

def option : Option (Written ο ν α) → Written ο ν (Option α)
  | none => const none
  | some w => map some (fun _ _ => Option.some.inj) w

/-- What is known of the occurrences may change: the naming sees them as they are now. -/
def relabel (h : ο → ο) (w : Written ο ν α) : Written ο ν α where
  text f := w.text (f ∘ h)
  names := w.names.map h
  faithful f g := by simp only [w.faithful, Function.comp_apply, List.forall_mem_map]

end Written
