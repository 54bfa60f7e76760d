import Mathlib.Data.Fintype.Card
import Mathlib.Data.Finset.Card
import Mathlib.Data.Fintype.Basic

/-! Reference counts. Each of finitely many places holds an object or nothing; `held` is the number of places that hold
an object. A count that is kept in step with the places, or is larger, tells that an object nobody counts is held nowhere. -/

namespace RefCount

variable {ι δ : Type} [Fintype ι] [DecidableEq ι] [DecidableEq δ]

/-- How many places hold the object. -/
def held (h : ι → Option δ) (d : δ) : ℕ := (Finset.univ.filter fun i => h i = some d).card

variable {h h₁ h₂ : ι → Option δ} {d : δ} {i : ι} {x : Option δ}

omit [DecidableEq ι] in
theorem held_eq_zero : held h d = 0 ↔ ∀ i, h i ≠ some d := by
  simp [held, Finset.filter_eq_empty_iff]

omit [DecidableEq ι] in
theorem held_mono (himp : ∀ i, h₁ i = some d → h i = some d) : held h₁ d ≤ held h d := by
  apply Finset.card_le_card
  intro i hi
  rw [Finset.mem_filter] at hi ⊢
  exact ⟨hi.1, himp i hi.2⟩

/-- A place that is given something else. -/
theorem held_update : held (Function.update h i x) d + (if h i = some d then 1 else 0) =
    held h d + (if x = some d then 1 else 0) := by
  have hrest (y : Option δ) : held (Function.update h i y) d =
      ((Finset.univ.erase i).filter fun j => h j = some d).card + (if y = some d then 1 else 0) := by
    unfold held
    rw [← Finset.insert_erase (Finset.mem_univ i), Finset.filter_insert, Function.update_self,
      Finset.erase_insert (Finset.notMem_erase i _)]
    have hsame : ((Finset.univ.erase i).filter fun j => Function.update h i y j = some d) =
        (Finset.univ.erase i).filter fun j => h j = some d := by
      apply Finset.filter_congr
      intro j hj
      rw [Function.update_of_ne (Finset.ne_of_mem_erase hj)]
    rw [hsame]
    split
    · apply Finset.card_insert_of_notMem
      intro hmem
      exact Finset.notMem_erase i _ (Finset.mem_of_mem_filter i hmem)
    · rfl
  have hself := hrest (h i)
  rw [Function.update_eq_self] at hself
  rw [hrest x, hself]
  omega

/-- The places are divided between two. -/
theorem held_split (hfirst : ∀ i, h₁ i = some d → h i = some d ∧ h₂ i ≠ some d)
    (hsecond : ∀ i, h₂ i = some d → h i = some d) : held h₁ d + held h₂ d ≤ held h d := by
  unfold held
  rw [← Finset.card_union_of_disjoint]
  · apply Finset.card_le_card
    intro i hi
    rw [Finset.mem_union, Finset.mem_filter, Finset.mem_filter] at hi
    rw [Finset.mem_filter]
    rcases hi with hi | hi
    · exact ⟨hi.1, (hfirst i hi.2).1⟩
    · exact ⟨hi.1, hsecond i hi.2⟩
  · rw [Finset.disjoint_filter]
    intro i _ hi
    exact (hfirst i hi).2

/-- The places of two are put together. -/
theorem held_merge (himp : ∀ i, h i = some d → h₁ i = some d ∨ h₂ i = some d) : held h d ≤ held h₁ d + held h₂ d := by
  unfold held
  refine le_trans (Finset.card_le_card ?_) (Finset.card_union_le _ _)
  intro i hi
  rw [Finset.mem_union, Finset.mem_filter, Finset.mem_filter]
  rw [Finset.mem_filter] at hi
  exact (himp i hi.2).imp (fun h => ⟨hi.1, h⟩) fun h => ⟨hi.1, h⟩

end RefCount
