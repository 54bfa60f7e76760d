import Mathlib.Algebra.BigOperators.Group.Multiset.Basic
import Mathlib.Algebra.Group.Pi.Basic
import Mathlib.Data.Multiset.AddSub
import Mathlib.Data.Multiset.Count

/-! A value that several agents update: an agent reads it, adds to its copy and writes the copy back. No
addition is lost exactly if nobody writes between the read and the write of another agent, whatever is
added. The additions carry labels, so that one can say which of them the shared value is made of. -/

namespace LostUpdate

variable {ι Λ : Type} [DecidableEq ι]

inductive Access (ι Λ : Type) where
  | read (i : ι)
  | add (i : ι) (l : Λ)
  | write (i : ι)

/-- At every write the writer's copy is fresh: nobody wrote after it was taken. -/
def serialFrom (fresh : ι → Bool) : List (Access ι Λ) → Bool
  | [] => true
  | .read i :: h => serialFrom (Function.update fresh i true) h
  | .add _ _ :: h => serialFrom fresh h
  | .write i :: h => fresh i && serialFrom (fun j => j == i) h

/-- In the beginning all copies are fresh. -/
def Serial (h : List (Access ι Λ)) : Prop := serialFrom (fun _ => true) h = true

section Labels

/-- The additions that the shared value and the copies are made of, those an agent has made to its copy
since it took it, and all those that were written. -/
structure Cell (ι Λ : Type) where
  shared : Multiset Λ
  copy : ι → Multiset Λ
  pending : ι → Multiset Λ
  written : Multiset Λ

namespace Cell

def start : Cell ι Λ := ⟨0, fun _ => 0, fun _ => 0, 0⟩

def step (c : Cell ι Λ) : Access ι Λ → Cell ι Λ
  | .read i => { c with copy := Function.update c.copy i c.shared, pending := Function.update c.pending i 0 }
  | .add i l => { c with pending := Function.update c.pending i (l ::ₘ c.pending i) }
  | .write i =>
    { shared := c.copy i + c.pending i
      copy := Function.update c.copy i (c.copy i + c.pending i)
      pending := Function.update c.pending i 0
      written := c.written + c.pending i }

def run (c : Cell ι Λ) (h : List (Access ι Λ)) : Cell ι Λ := h.foldl step c

/-- No write is made without an addition. -/
def Busy (c : Cell ι Λ) : List (Access ι Λ) → Prop
  | [] => True
  | a :: h => (∀ i, a = .write i → c.pending i ≠ 0) ∧ (c.step a).Busy h

/-- A copy that is not fresh lacks something that was written. -/
structure Inv (c : Cell ι Λ) (fresh : ι → Bool) : Prop where
  shared_le : c.shared ≤ c.written
  copy_le : ∀ i, c.copy i ≤ c.written
  copy_fresh : ∀ i, fresh i = true → c.copy i = c.shared
  copy_stale : ∀ i, fresh i = false → (c.copy i).card < c.written.card

omit [DecidableEq ι] in
theorem inv_start : (start : Cell ι Λ).Inv fun _ => true where
  shared_le := le_rfl
  copy_le _ := le_rfl
  copy_fresh _ _ := rfl
  copy_stale _ h := absurd h (by simp)

variable {c : Cell ι Λ} {fresh : ι → Bool}

theorem Inv.read (h : c.Inv fresh) (i : ι) : (c.step (.read i)).Inv (Function.update fresh i true) where
  shared_le := h.shared_le
  copy_le j := by
    by_cases hj : j = i
    · subst hj
      simpa [step] using h.shared_le
    · simpa [step, hj] using h.copy_le j
  copy_fresh j hf := by
    by_cases hj : j = i
    · subst hj
      simp [step]
    · rw [Function.update_of_ne hj] at hf
      simpa [step, hj] using h.copy_fresh j hf
  copy_stale j hf := by
    by_cases hj : j = i
    · subst hj
      simp at hf
    · rw [Function.update_of_ne hj] at hf
      simpa [step, hj] using h.copy_stale j hf

theorem Inv.add (h : c.Inv fresh) (i : ι) (l : Λ) : (c.step (.add i l)).Inv fresh :=
  ⟨h.shared_le, h.copy_le, h.copy_fresh, h.copy_stale⟩

theorem Inv.write (h : c.Inv fresh) {i : ι} (hbusy : c.pending i ≠ 0) : (c.step (.write i)).Inv fun j => j == i where
  shared_le := add_le_add_left (h.copy_le i) _
  copy_le j := by
    by_cases hj : j = i
    · subst hj
      simpa [step] using h.copy_le j
    · simpa [step, hj] using (h.copy_le j).trans (Multiset.le_add_right ..)
  copy_fresh j hf := by
    obtain rfl : j = i := by simpa using hf
    simp [step]
  copy_stale j hf := by
    have hj : j ≠ i := by simpa using hf
    have hle : (c.copy j).card ≤ c.written.card := Multiset.card_le_card (h.copy_le j)
    have hpos : 0 < (c.pending i).card := Multiset.card_pos.mpr hbusy
    simp only [step, Function.update_of_ne hj, Multiset.card_add]
    omega

/-- The write of `i` completes the shared value exactly if it was complete and the copy of `i` fresh. -/
theorem Inv.complete_write_iff (h : c.Inv fresh) (i : ι) :
    (c.step (.write i)).shared = (c.step (.write i)).written ↔ c.shared = c.written ∧ fresh i = true := by
  change c.copy i + c.pending i = c.written + c.pending i ↔ _
  rw [add_left_inj]
  constructor
  · intro hcopy
    rcases hf : fresh i with _ | _
    · have hlt := h.copy_stale i hf
      rw [hcopy] at hlt
      exact absurd hlt (lt_irrefl _)
    · exact ⟨(h.copy_fresh i hf).symm.trans hcopy, rfl⟩
  · rintro ⟨hshared, hf⟩
    exact (h.copy_fresh i hf).trans hshared

variable {h : List (Access ι Λ)}

/-- Along a history the shared value stays complete exactly if the history is serial. -/
theorem Inv.complete_run_iff (hinv : c.Inv fresh) (hbusy : c.Busy h) :
    (c.run h).shared = (c.run h).written ↔ c.shared = c.written ∧ serialFrom fresh h = true := by
  induction h generalizing c fresh with
  | nil => simp [run, serialFrom]
  | cons a h ih =>
    change ((c.step a).run h).shared = ((c.step a).run h).written ↔ _
    cases a with
    | read i => exact ih (hinv.read i) hbusy.2
    | add i l => exact ih (hinv.add i l) hbusy.2
    | write i =>
      rw [ih (hinv.write (hbusy.1 i rfl)) hbusy.2, hinv.complete_write_iff i, serialFrom, Bool.and_eq_true,
        and_assoc]

theorem Inv.run_le (hinv : c.Inv fresh) (hbusy : c.Busy h) : (c.run h).shared ≤ (c.run h).written := by
  induction h generalizing c fresh with
  | nil => exact hinv.shared_le
  | cons a h ih =>
    cases a with
    | read i => exact ih (hinv.read i) hbusy.2
    | add i l => exact ih (hinv.add i l) hbusy.2
    | write i => exact ih (hinv.write (hbusy.1 i rfl)) hbusy.2

/-- **Nothing is lost exactly in a serial history.** -/
theorem complete_iff_serial (hbusy : (start : Cell ι Λ).Busy h) :
    ((start : Cell ι Λ).run h).shared = ((start : Cell ι Λ).run h).written ↔ Serial h :=
  (inv_start.complete_run_iff hbusy).trans (and_iff_right rfl)

end Cell

end Labels

section Values

variable {G : Type} [AddCommMonoid G]

/-- The shared value and the copies. -/
structure Store (ι G : Type) where
  shared : G
  own : ι → G

namespace Store

def step (d : Λ → G) (s : Store ι G) : Access ι Λ → Store ι G
  | .read i => { s with own := Function.update s.own i s.shared }
  | .add i l => { s with own := Function.update s.own i (s.own i + d l) }
  | .write i => { s with shared := s.own i }

def run (d : Λ → G) (s : Store ι G) (h : List (Access ι Λ)) : Store ι G := h.foldl (step d) s

/-- The values are the initial one and the additions they are made of. -/
structure Made (d : Λ → G) (x : G) (s : Store ι G) (c : Cell ι Λ) : Prop where
  shared : s.shared = x + (c.shared.map d).sum
  own : ∀ i, s.own i = x + ((c.copy i + c.pending i).map d).sum

variable {d : Λ → G} {x : G}

omit [DecidableEq ι] in
theorem Made.start (x : G) : Made d x (⟨x, fun _ => x⟩ : Store ι G) .start where
  shared := by simp [Cell.start]
  own i := by simp [Cell.start]

theorem Made.step {s : Store ι G} {c : Cell ι Λ} (h : Made d x s c) (a : Access ι Λ) :
    Made d x (s.step d a) (c.step a) := by
  cases a with
  | read i =>
    refine ⟨h.shared, fun j => ?_⟩
    by_cases hj : j = i
    · subst hj
      simpa [Store.step, Cell.step] using h.shared
    · simpa [Store.step, Cell.step, hj] using h.own j
  | add i l =>
    refine ⟨h.shared, fun j => ?_⟩
    by_cases hj : j = i
    · subst hj
      have hown := h.own j
      rw [Multiset.map_add, Multiset.sum_add] at hown
      simp only [Store.step, Cell.step, Function.update_self, Multiset.map_add, Multiset.map_cons,
        Multiset.sum_add, Multiset.sum_cons, hown]
      rw [add_assoc, add_assoc, add_comm (d l)]
    · simpa [Store.step, Cell.step, hj] using h.own j
  | write i =>
    refine ⟨h.own i, fun j => ?_⟩
    by_cases hj : j = i
    · subst hj
      simpa [Store.step, Cell.step] using h.own j
    · simpa [Store.step, Cell.step, hj] using h.own j

theorem Made.run {s : Store ι G} {c : Cell ι Λ} (hs : Made d x s c) (h : List (Access ι Λ)) :
    Made d x (s.run d h) (c.run h) := by
  induction h generalizing s c with
  | nil => exact hs
  | cons a h ih => exact ih (hs.step a)

end Store

/-- An addition that is missing shows when it is the only one that is not zero. -/
theorem exists_missing [DecidableEq Λ] {a w : Multiset Λ} (hle : a ≤ w) (hne : a ≠ w) (hnodup : w.Nodup) :
    ∃ l ∈ w, ∀ g : G, (a.map (Pi.single l g)).sum = 0 ∧ (w.map (Pi.single l g)).sum = g := by
  have hsum (m : Multiset Λ) (l : Λ) (g : G) : (m.map (Pi.single l g)).sum = m.count l • g := by
    induction m using Multiset.induction_on with
    | empty => simp
    | cons k m ih =>
      rw [Multiset.map_cons, Multiset.sum_cons, ih, Multiset.count_cons, add_nsmul, Pi.single_apply]
      by_cases hk : k = l
      · subst hk
        rw [if_pos rfl, if_pos rfl, one_nsmul, add_comm]
      · rw [if_neg hk, if_neg (Ne.symm hk), zero_nsmul, zero_add, add_zero]
  obtain ⟨l, hlt⟩ : ∃ l, a.count l < w.count l := by
    by_contra hall
    push Not at hall
    exact hne (le_antisymm hle (Multiset.le_iff_count.mpr hall))
  have hw : w.count l = 1 := by
    have hpos : l ∈ w := Multiset.count_pos.mp ((Nat.zero_le _).trans_lt hlt)
    exact Multiset.count_eq_one_of_mem hnodup hpos
  have ha : a.count l = 0 := by omega
  refine ⟨l, Multiset.count_pos.mp (by omega), fun g => ⟨?_, ?_⟩⟩
  · rw [hsum, ha, zero_nsmul]
  · rw [hsum, hw, one_nsmul]

end Values

end LostUpdate
