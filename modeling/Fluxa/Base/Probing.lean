import Mathlib.Logic.Function.Basic
import Mathlib.Data.List.TakeWhile

/-! Open addressing. A table has slots, each empty or with a key and a value, and every key has a path of slots. A lookup
follows the path up to the first empty slot. In a sound table a key is stored at most once, on its path, and no slot
before it on the path is empty; there the lookup finds exactly what is stored. Storing on the first free slot or over
another entry keeps the table sound. Erasing keeps it sound if the slot is on no other entry's way. -/

namespace Probing

variable {ι κ ν : Type}

abbrev Table (ι κ ν : Type) := ι → Option (κ × ν)

variable [DecidableEq ι] [DecidableEq κ]

/-- The slots in front of a slot on a path. -/
def way (path : List ι) (i : ι) : List ι := path.takeWhile (· ≠ i)

/-- The lookup. -/
def find (t : Table ι κ ν) (k : κ) : List ι → Option ι
  | [] => none
  | i :: path =>
    match t i with
    | none => none
    | some e => if e.1 = k then some i else find t k path

section Find

variable {t : Table ι κ ν} {k : κ} {path : List ι} {i : ι}

theorem way_cons_self : way (i :: path) i = [] := by simp [way]

theorem way_cons_of_ne {j : ι} (h : j ≠ i) : way (j :: path) i = j :: way path i := by simp [way, h]

theorem ne_of_mem_way {j : ι} (h : j ∈ way path i) : j ≠ i := by simpa using List.mem_takeWhile_imp h

theorem mem_of_mem_way {j : ι} (h : j ∈ way path i) : j ∈ path := (List.takeWhile_prefix _).subset h

/-- Nothing in front of the first match is one. -/
theorem not_of_mem_way {p : ι → Bool} (h : path.find? p = some i) {j : ι} (hj : j ∈ way path i) : p j = false := by
  induction path with
  | nil => exact absurd hj List.not_mem_nil
  | cons x path ih =>
    cases hx : p x with
    | true =>
      obtain rfl : x = i := by simpa [hx] using h
      rw [way_cons_self] at hj
      exact absurd hj List.not_mem_nil
    | false =>
      have hrest : path.find? p = some i := by simpa [hx] using h
      have hne : x ≠ i := by
        rintro rfl
        simp [List.find?_some hrest] at hx
      rw [way_cons_of_ne hne] at hj
      rcases List.mem_cons.mp hj with rfl | hj
      · exact hx
      · exact ih hrest hj

omit [DecidableEq ι] in
theorem find_some (h : find t k path = some i) : i ∈ path ∧ ∃ v, t i = some (k, v) := by
  induction path with
  | nil => exact absurd h nofun
  | cons j path ih =>
    unfold find at h
    split at h
    · exact absurd h nofun
    · rename_i e he
      split at h
      · rename_i hk
        obtain rfl := Option.some.inj h
        exact ⟨List.mem_cons_self, e.2, by rw [he, ← hk]⟩
      · exact ⟨List.mem_cons_of_mem j (ih h).1, (ih h).2⟩

/-- An entry is found if the slots on its way are taken by other keys. -/
theorem find_of_way {v : ν} (hi : i ∈ path) (hki : t i = some (k, v))
    (hway : ∀ j ∈ way path i, ∃ e, t j = some e ∧ e.1 ≠ k) : find t k path = some i := by
  induction path with
  | nil => exact absurd hi List.not_mem_nil
  | cons j path ih =>
    by_cases hj : j = i
    · simp [find, hj, hki]
    · rw [way_cons_of_ne hj] at hway
      obtain ⟨e, he, hne⟩ := hway j List.mem_cons_self
      have hrest := ih (List.mem_of_ne_of_mem (Ne.symm hj) hi) fun x hx => hway x (List.mem_cons_of_mem j hx)
      simp [find, he, hne, hrest]

/-- An empty slot on the way hides an entry. -/
theorem find_of_hole {j : ι} (hkey : ∀ j ∈ way path i, ∀ e, t j = some e → e.1 ≠ k) (hj : j ∈ way path i)
    (hole : t j = none) : find t k path = none := by
  induction path with
  | nil => rfl
  | cons x path ih =>
    by_cases hx : x = i
    · rw [hx, way_cons_self] at hj
      exact absurd hj List.not_mem_nil
    · rw [way_cons_of_ne hx] at hj hkey
      cases he : t x with
      | none => simp [find, he]
      | some e =>
        have hrest : j ∈ way path i := (List.mem_cons.mp hj).resolve_left fun h => by simp [h, he] at hole
        simp [find, he, hkey x List.mem_cons_self e he, ih (fun y hy => hkey y (List.mem_cons_of_mem x hy)) hrest]

end Find

/-- Every entry is on its key's path with no empty slot on the way, and no key is stored twice. -/
structure Sound (path : κ → List ι) (t : Table ι κ ν) : Prop where
  placed : ∀ {i k v}, t i = some (k, v) → i ∈ path k
  filled : ∀ {i k v}, t i = some (k, v) → ∀ j ∈ way (path k) i, t j ≠ none
  unique : ∀ {i j k v w}, t i = some (k, v) → t j = some (k, w) → i = j

section Sound

variable {path : κ → List ι} {t : Table ι κ ν} {k : κ} {i : ι} {v : ν}

omit [DecidableEq κ] in
theorem sound_empty : Sound path (fun _ => none : Table ι κ ν) := ⟨nofun, nofun, nofun⟩

omit [DecidableEq κ] in
theorem Sound.other_key (h : Sound path t) (hi : t i = some (k, v)) {j : ι} (hj : j ∈ way (path k) i) {e : κ × ν}
    (he : t j = some e) : e.1 ≠ k := by
  rintro rfl
  exact ne_of_mem_way hj (h.unique he hi)

theorem Sound.find_iff (h : Sound path t) : find t k (path k) = some i ↔ ∃ v, t i = some (k, v) := by
  constructor
  · exact fun hf => (find_some hf).2
  · rintro ⟨v, hi⟩
    refine find_of_way (h.placed hi) hi fun j hj => ?_
    obtain ⟨e, he⟩ := Option.ne_none_iff_exists'.mp (h.filled hi j hj)
    exact ⟨e, he, h.other_key hi hj he⟩

theorem Sound.find_none_iff (h : Sound path t) : find t k (path k) = none ↔ ∀ i v, t i ≠ some (k, v) := by
  constructor
  · intro hf i v hi
    rw [h.find_iff.mpr ⟨v, hi⟩] at hf
    exact absurd hf nofun
  · intro hno
    cases hf : find t k (path k) with
    | none => rfl
    | some i =>
      obtain ⟨v, hv⟩ := h.find_iff.mp hf
      exact absurd hv (hno i v)

omit [DecidableEq κ] in
/-- A key may be stored in a slot of its path with no empty slot on the way, if it is stored nowhere else. -/
theorem Sound.store (h : Sound path t) (hi : i ∈ path k) (hway : ∀ j ∈ way (path k) i, t j ≠ none)
    (honly : ∀ j w, t j = some (k, w) → j = i) : Sound path (Function.update t i (some (k, v))) := by
  have hfull {j : ι} (hj : t j ≠ none) : Function.update t i (some (k, v)) j ≠ none := by
    by_cases hji : j = i
    · simp [hji]
    · simpa [hji] using hj
  constructor
  · intro j l w hj
    by_cases hji : j = i
    · simp only [hji, Function.update_self, Option.some.injEq, Prod.mk.injEq] at hj
      rw [hji, ← hj.1]
      exact hi
    · exact h.placed (by simpa [hji] using hj)
  · intro j l w hj x hx
    by_cases hji : j = i
    · simp only [hji, Function.update_self, Option.some.injEq, Prod.mk.injEq] at hj
      rw [hji, ← hj.1] at hx
      exact hfull (hway x hx)
    · exact hfull (h.filled (by simpa [hji] using hj) x hx)
  · have hnew {j : ι} {l : κ} {u w : ν} (hji : j ≠ i) (hj : Function.update t i (some (k, v)) j = some (l, u))
        (hl : Function.update t i (some (k, v)) i = some (l, w)) : False := by
      simp only [Function.update_self, Option.some.injEq, Prod.mk.injEq] at hl
      rw [Function.update_of_ne hji, ← hl.1] at hj
      exact hji (honly j u hj)
    intro j x l u w hj hx
    by_cases hji : j = i
    · by_cases hxi : x = i
      · rw [hji, hxi]
      · exact (hnew hxi hx (hji ▸ hj)).elim
    · by_cases hxi : x = i
      · exact (hnew hji hj (hxi ▸ hx)).elim
      · exact h.unique (by simpa [hji] using hj) (by simpa [hxi] using hx)

omit [DecidableEq κ] in
/-- A slot that is on no other entry's way may be erased. -/
theorem Sound.erase (h : Sound path t) (hfree : ∀ j l w, t j = some (l, w) → i ∉ way (path l) j) :
    Sound path (Function.update t i none) := by
  have hold {j : ι} {e : κ × ν} (hj : Function.update t i none j = some e) : j ≠ i ∧ t j = some e := by
    by_cases hji : j = i
    · simp [hji] at hj
    · exact ⟨hji, by simpa [hji] using hj⟩
  refine ⟨fun hj => h.placed (hold hj).2, fun hj x hx => ?_, fun hj hx => h.unique (hold hj).2 (hold hx).2⟩
  have hxi : x ≠ i := by
    rintro rfl
    exact hfree _ _ _ (hold hj).2 hx
  rw [Function.update_of_ne hxi]
  exact h.filled (hold hj).2 x hx

end Sound

end Probing
