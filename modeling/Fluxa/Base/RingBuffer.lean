import Mathlib.Data.Nat.ModEq

/-! A ring of a fixed number of slots. A full ring loses its oldest entry when another one is pushed. -/

structure RingBuffer (α : Type) (cap : ℕ) where
  entries : ℕ → α
  base : ℕ
  count : ℕ
  base_lt : base < cap
  count_le : count ≤ cap

namespace RingBuffer

variable {α : Type} {cap : ℕ} (s : RingBuffer α cap)

def slot (i : ℕ) : ℕ := (s.base + i) % cap

def push (e : α) : RingBuffer α cap :=
  if h : s.count < cap then
    { s with entries := Function.update s.entries (s.slot s.count) e, count := s.count + 1, count_le := h }
  else
    { s with
      entries := Function.update s.entries s.base e
      base := (s.base + 1) % cap
      base_lt := Nat.mod_lt _ (Nat.lt_of_le_of_lt (Nat.zero_le _) s.base_lt) }

/-- The entry at a distance from the newest. -/
def get (i : ℕ) : Option α :=
  if i < s.count then some (s.entries ((s.base + s.count - 1 - i + cap * 2) % cap)) else none

/-- The count is set back. -/
def keep (n : ℕ) (h : n ≤ s.count) : RingBuffer α cap := { s with count := n, count_le := h.trans s.count_le }

/-- The entries, oldest first. -/
def contents : List α := (List.range s.count).map fun i => s.entries (s.slot i)

@[simp] theorem length_contents : s.contents.length = s.count := by
  rw [contents, List.length_map, List.length_range]

theorem slot_inj {i j : ℕ} (hi : i < cap) (hj : j < cap) (h : s.slot i = s.slot j) : i = j := by
  have hmod : i % cap = j % cap := Nat.ModEq.add_left_cancel' s.base h
  rwa [Nat.mod_eq_of_lt hi, Nat.mod_eq_of_lt hj] at hmod

theorem slot_zero : s.slot 0 = s.base := Nat.mod_eq_of_lt s.base_lt

theorem contents_keep {n : ℕ} (h : n ≤ s.count) : (s.keep n h).contents = s.contents.take n := by
  rw [contents, contents, ← List.map_take, List.take_range, Nat.min_eq_left h]
  rfl

theorem get_eq (i : ℕ) : s.get i = s.contents.reverse[i]? := by
  by_cases h : i < s.count
  · have hslot : (s.base + s.count - 1 - i + cap * 2) % cap = s.slot (s.count - 1 - i) := by
      rw [Nat.add_mul_mod_self_left, slot]
      congr 1
      omega
    rw [get, if_pos h, hslot, List.getElem?_reverse (by rwa [length_contents]), length_contents, contents,
      List.getElem?_map, List.getElem?_range (by omega)]
    rfl
  · rw [get, if_neg h, List.getElem?_eq_none (by rw [List.length_reverse, length_contents]; omega)]

/-- The newest entries, the oldest of them first. -/
theorem filterMap_get (k : ℕ) : (List.range k).reverse.filterMap s.get = s.contents.drop (s.count - k) := by
  have hnewest : (List.range k).filterMap s.get = s.contents.reverse.take k := by
    induction k with
    | zero => rfl
    | succ k ih =>
      rw [List.range_succ, List.filterMap_append, ih, List.take_add_one, ← get_eq]
      cases hk : s.get k <;> simp [hk]
  rw [List.filterMap_reverse, hnewest, List.reverse_take, List.reverse_reverse, List.length_reverse, length_contents]

/-- A push, seen in the contents. -/
theorem contents_push (e : α) : (s.push e).contents = (s.contents ++ [e]).drop (s.count + 1 - cap) := by
  rw [push]
  split
  · rename_i h
    rw [Nat.sub_eq_zero_of_le h, List.drop_zero, contents, contents]
    dsimp only
    rw [List.range_succ, List.map_append, List.map_singleton, slot]
    congr 1
    · refine List.map_congr_left fun i hi => ?_
      rw [List.mem_range] at hi
      refine Function.update_of_ne (fun hslot => ?_) _ _
      exact absurd (s.slot_inj (hi.trans h) h hslot) (Nat.ne_of_lt hi)
    · exact congrArg (· :: []) (Function.update_self _ _ _)
  · rename_i h
    have hfull : s.count = cap := by
      have := s.count_le
      omega
    have hpos : 0 < cap := Nat.lt_of_le_of_lt (Nat.zero_le _) s.base_lt
    obtain ⟨m, hm⟩ : ∃ m, s.count = m + 1 := ⟨s.count - 1, by omega⟩
    -- the ring begins one slot later, and the slot of the oldest entry is now that of the newest
    have hslot (i : ℕ) : ((s.base + 1) % cap + i) % cap = s.slot (i + 1) := by
      rw [Nat.mod_add_mod, slot, Nat.add_assoc, Nat.add_comm 1]
    have hlast : s.slot (m + 1) = s.base := by
      rw [slot, ← hm, hfull, Nat.add_mod_right, Nat.mod_eq_of_lt s.base_lt]
    have hone : s.count + 1 - cap = 1 := by omega
    change (List.range s.count).map (fun i => Function.update s.entries s.base e (((s.base + 1) % cap + i) % cap)) =
      ((List.range s.count).map (fun i => s.entries (s.slot i)) ++ [e]).drop (s.count + 1 - cap)
    rw [hone, hm]
    nth_rewrite 1 [List.range_succ]
    rw [List.range_succ_eq_map, List.map_cons, List.cons_append, List.drop_one, List.tail_cons, List.map_map,
      List.map_append, List.map_singleton]
    congr 1
    · refine List.map_congr_left fun i hi => ?_
      rw [List.mem_range] at hi
      rw [Function.comp_apply, hslot]
      refine Function.update_of_ne (fun heq => ?_) _ _
      exact absurd (s.slot_inj (by omega) hpos (heq.trans s.slot_zero.symm)) (Nat.succ_ne_zero i)
    · rw [hslot, hlast, Function.update_self]

theorem count_push (e : α) : (s.push e).count = min (s.count + 1) cap := by
  have := s.count_le
  rw [← length_contents, contents_push, List.length_drop, List.length_append, length_contents, List.length_singleton]
  omega

/-- The newest entry comes first. -/
theorem reverse_contents_push (e : α) : (s.push e).contents.reverse = (e :: s.contents.reverse).take cap := by
  have := s.count_le
  rw [contents_push, List.reverse_drop, List.reverse_append, List.length_append, length_contents, List.length_singleton,
    List.reverse_singleton, List.singleton_append]
  by_cases h : s.count < cap
  · rw [List.take_of_length_le (by simp; omega), List.take_of_length_le (by simp; omega)]
  · congr 1
    omega

/-- Pushes, one after the other. -/
theorem contents_foldl_push (es : List α) :
    (es.foldl push s).contents = (s.contents ++ es).drop (s.count + es.length - cap) := by
  induction es generalizing s with
  | nil =>
    have := s.count_le
    rw [List.foldl_nil, List.append_nil, List.length_nil, Nat.add_zero, Nat.sub_eq_zero_of_le this, List.drop_zero]
  | cons e es ih =>
    have hcount := s.count_push e
    have hle := s.count_le
    have happend : s.contents ++ e :: es = s.contents ++ [e] ++ es := by simp
    rw [List.foldl_cons, ih, contents_push, happend, List.length_cons]
    rw [← List.drop_append_of_le_length (by simp), List.drop_drop]
    congr 1
    omega

end RingBuffer
